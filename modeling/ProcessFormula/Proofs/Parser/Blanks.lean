import ProcessFormula.Proofs.Parser.Tracing

/-!
Two runs of the parser: over a text, and over the same text without the blanks outside of literals.
Every reader is compared with itself. It builds the same tree, or fails with the same fault, and what
it leaves unread of the second text is what it leaves of the first, without the blanks.
-/

namespace ProcessFormula

open Grammar

/-- The fault in the same place of a text without blanks. Only the input that is left over is part of
the text. -/
def Fault.squeezed : Fault → Fault
  | .trailingInput rest => .trailingInput (String.ofList (squeeze rest.toList))
  | fault => fault

namespace Parser

open Lexeme Text

def Failure.squeezed (e : Failure) : Failure := ⟨e.fault.squeezed, squeeze e.unread⟩

/-- The second text is what is left of the first without the blanks; the first does not start with a
blank either. -/
structure Squeezed (s s' : Input) : Prop where
  eq : s' = squeeze s
  solid : StartsSolid s

/-- Two computations succeed with related results or fail at the same place. -/
inductive Mirrored {α β : Type} (related : α → β → Prop) :
    Except Failure α → Except Failure β → Prop
  | ok {a : α} {b : β} (h : related a b) : Mirrored related (.ok a) (.ok b)
  | error (e : Failure) : Mirrored related (.error e) (.error e.squeezed)

/-- Computations that mirror each other may be continued by computations that do. -/
theorem Mirrored.bind {α β γ δ : Type} {related : α → β → Prop} {related' : γ → δ → Prop}
    {x : Except Failure α} {y : Except Failure β} (h : Mirrored related x y)
    {f : α → Except Failure γ} {g : β → Except Failure δ}
    (hmore : ∀ a b, related a b → Mirrored related' (f a) (g b)) :
    Mirrored related' (x >>= f) (y >>= g) := by
  cases h with
  | ok h => exact hmore _ _ h
  | error e => exact .error e

/-- Two last names are the same, and the texts that start with them are related. -/
def SameName (lastName lastName' : Option (String × Input)) : Prop :=
  lastName' = lastName.map fun named => (named.1, squeeze named.2)

theorem SameName.or {lastName lastName' other other' : Option (String × Input)}
    (h : SameName lastName lastName') (h' : SameName other other') :
    SameName (lastName.or other) (lastName'.or other') := by
  rw [SameName, h, h', Option.map_or]

section

variable {s s' u u' : Input}

structure Parsed.Mirrors (p : Parsed s) (p' : Parsed s') : Prop where
  tree : p'.tree = p.tree
  lastName : SameName p.lastName p'.lastName
  rest : Squeezed p.rest p'.rest

structure Arguments.Mirrors (a : Arguments s) (a' : Arguments s') : Prop where
  trees : a'.trees = a.trees
  lastName : SameName a.lastName a'.lastName
  rest : Squeezed a.rest a'.rest

structure Operand.Mirrors (p : Operand s) (p' : Operand s') : Prop where
  operand : p'.operand = p.operand
  lastName : SameName p.lastName p'.lastName
  rest : Squeezed p.rest p'.rest

/-- Two operators are the same, and what follows them is related. -/
def OperatorMirrors : Operator s → Operator s' → Prop :=
  Option.Rel fun found found' => found'.1 = found.1 ∧ Squeezed found.2.1 found'.2.1

end

/-- The results of a reader over two such texts are related. -/
def Mirroring (reader : Reader) : Prop :=
  ∀ {s s' : Input}, Squeezed s s' → Mirrored Parsed.Mirrors (reader s) (reader s')

section

variable {s s' u u' : Input}

/-- A character that is no quote is accepted in both texts or in neither. -/
theorem mirrored_accept {c : Char} (hc : isQuote c = false) (h : Squeezed s s') :
    Option.Rel (fun rest rest' => Squeezed rest.1 rest'.1) (accept c s) (accept c s') := by
  have hvalues := accept_squeeze hc h.solid
  rw [← h.eq] at hvalues
  have hsolid : ∀ rest, accept c s = some rest → StartsSolid rest.1 := fun _ => startsSolid_accept
  generalize accept c s = found at hvalues hsolid ⊢
  generalize accept c s' = found' at hvalues ⊢
  rcases found with _ | rest <;> rcases found' with _ | rest'
  · exact .none
  · cases hvalues
  · cases hvalues
  · exact .some ⟨Option.some.inj hvalues, hsolid rest rfl⟩

theorem mirrored_unexpected {α β : Type} {related : α → β → Prop} (expected : Expected)
    (h : Squeezed s s') :
    Mirrored related (.error (unexpected expected s)) (.error (unexpected expected s')) := by
  have hsame : unexpected expected s' = (unexpected expected s).squeezed := by
    rw [h.eq]
    cases s with
    | nil => rfl
    | cons c s =>
        rw [squeeze_cons_of_solid (startsSolid_cons.mp h.solid)]
        rw [Failure.squeezed, unexpected, unexpected]
        exact congrArg _ (squeeze_cons_of_solid (startsSolid_cons.mp h.solid) s).symm
  rw [hsame]
  exact .error _

theorem mirrored_limited {tree tree' : Expr String} (htree : tree' = tree) (h : Squeezed u u') :
    Mirrored Eq (limited tree u) (limited tree' u') := by
  rw [htree, h.eq]
  unfold limited
  split
  · exact .ok rfl
  · exact .error ⟨_, _⟩

theorem mirrored_closeParenthesis (h : Squeezed s s') :
    Mirrored (fun rest rest' => Squeezed rest.1 rest'.1) (closeParenthesis s)
      (closeParenthesis s') := by
  unfold closeParenthesis
  have haccept := mirrored_accept (c := ')') rfl h
  generalize accept ')' s = found at haccept ⊢
  generalize accept ')' s' = found' at haccept ⊢
  cases haccept with
  | none => exact mirrored_unexpected _ h
  | some hrest => exact .ok hrest

/-! ### Operators -/

theorem OperatorMirrors.or {found other : Operator s} {found' other' : Operator s'}
    (h : OperatorMirrors found found') (h' : OperatorMirrors other other') :
    OperatorMirrors (found.or other) (found'.or other') := by
  cases h with
  | none => exact h'
  | some h => exact .some h

theorem mirrors_single {c : Char} (hc : isQuote c = false) (op : BinaryOp) (h : Squeezed s s') :
    OperatorMirrors (single c op s) (single c op s') := by
  unfold single
  have haccept := mirrored_accept hc h
  generalize accept c s = found at haccept ⊢
  generalize accept c s' = found' at haccept ⊢
  cases haccept with
  | none => exact .none
  | some hrest => exact .some ⟨rfl, hrest⟩

theorem squeezed_skip {c : Char} (hc : isQuote c = false) (h : Squeezed s s') :
    Squeezed (skip c s) (skip c s') := by
  unfold skip
  have haccept := mirrored_accept hc h
  generalize accept c s = found at haccept ⊢
  generalize accept c s' = found' at haccept ⊢
  cases haccept with
  | none => exact h
  | some hrest => exact hrest

theorem mirrors_doubled {c : Char} (hc : isQuote c = false) (op : BinaryOp) (h : Squeezed s s') :
    OperatorMirrors (doubled c op s) (doubled c op s') := by
  unfold doubled
  have haccept := mirrored_accept hc h
  generalize accept c s = found at haccept ⊢
  generalize accept c s' = found' at haccept ⊢
  cases haccept with
  | none => exact .none
  | some hrest => exact .some ⟨rfl, squeezed_skip hc hrest⟩

theorem mirrors_maybeEquals {c : Char} (hc : isQuote c = false) (alone orEqual : BinaryOp)
    (h : Squeezed s s') :
    OperatorMirrors (maybeEquals c alone orEqual s) (maybeEquals c alone orEqual s') := by
  unfold maybeEquals
  have haccept := mirrored_accept hc h
  generalize accept c s = found at haccept ⊢
  generalize accept c s' = found' at haccept ⊢
  cases haccept with
  | none => exact .none
  | @some rest rest' hrest =>
      refine .some ?_
      dsimp only
      have hequals := mirrored_accept (c := '=') rfl hrest
      generalize accept '=' rest.1 = more at hequals ⊢
      generalize accept '=' rest'.1 = more' at hequals ⊢
      cases hequals with
      | none => exact ⟨rfl, hrest⟩
      | some hmore => exact ⟨rfl, hmore⟩

theorem mirrored_withEquals {c : Char} (hc : isQuote c = false) (op : BinaryOp)
    (expected : Expected) (h : Squeezed s s') :
    Mirrored OperatorMirrors (withEquals c op expected s) (withEquals c op expected s') := by
  unfold withEquals
  have haccept := mirrored_accept hc h
  generalize accept c s = found at haccept ⊢
  generalize accept c s' = found' at haccept ⊢
  cases haccept with
  | none => exact .ok .none
  | @some rest rest' hrest =>
      have hequals := mirrored_accept (c := '=') rfl hrest
      dsimp only
      generalize accept '=' rest.1 = more at hequals ⊢
      generalize accept '=' rest'.1 = more' at hequals ⊢
      cases hequals with
      | none =>
          have hsame : unfinished expected c rest'.1 = (unfinished expected c rest.1).squeezed := by
            rw [unfinished, hrest.eq, take_one_squeeze hrest.solid]
            rfl
          rw [hsame]
          exact .error _
      | some hmore => exact .ok (.some ⟨rfl, hmore⟩)

theorem mirrored_compareOperator (h : Squeezed s s') :
    Mirrored OperatorMirrors (compareOperator s) (compareOperator s') := by
  refine (mirrored_withEquals rfl .ne .notEqual h).bind fun ne ne' hne => ?_
  refine (mirrored_withEquals rfl .eq .equal h).bind fun eq eq' heq => ?_
  exact .ok (((hne.or heq).or (mirrors_maybeEquals rfl .gt .ge h)).or
    (mirrors_maybeEquals rfl .lt .le h))

theorem mirrored_sumOperator (h : Squeezed s s') :
    Mirrored OperatorMirrors (sumOperator s) (sumOperator s') :=
  .ok ((mirrors_single rfl .add h).or (mirrors_single rfl .sub h))

theorem mirrored_productOperator (h : Squeezed s s') :
    Mirrored OperatorMirrors (productOperator s) (productOperator s') :=
  .ok (((mirrors_single rfl .pow h).or (mirrors_single rfl .mul h)).or
    (mirrors_single rfl .div h))

end

/-! ### Loops -/

section

variable {scope : Scope} {nested : Reader} {s s' u u' : Input}

theorem mirrored_chainFrom {operator : (s : Input) → Except Failure (Operator s)} {operand : Reader}
    (hoperator : ∀ {u u' : Input}, Squeezed u u' →
      Mirrored OperatorMirrors (operator u) (operator u'))
    (hoperand : Mirroring operand) {left : Parsed s} {left' : Parsed s'}
    (hleft : left.Mirrors left') :
    Mirrored Parsed.Mirrors (chainFrom operator operand left)
      (chainFrom operator operand left') := by
  induction left using chainFrom.induct generalizing left' with
  | case1 left ih =>
      rw [chainFrom.eq_def operator operand left, chainFrom.eq_def operator operand left']
      refine (hoperator hleft.rest).bind fun found found' hfound => ?_
      cases hfound with
      | none => exact .ok hleft
      | @some found found' h =>
          obtain ⟨op, rest⟩ := found
          obtain ⟨op', rest'⟩ := found'
          obtain ⟨rfl, hrest⟩ := h
          refine (hoperand hrest).bind fun right right' hright => ?_
          have htree : Expr.binary op' left'.tree right'.tree =
              .binary op' left.tree right.tree := by
            rw [hleft.tree, hright.tree]
          refine (mirrored_limited htree hright.rest).bind fun tree tree' hsame => ?_
          exact ih rest right tree ⟨hsame.symm, hright.lastName.or hleft.lastName, hright.rest⟩

theorem mirroring_chain {operator : (s : Input) → Except Failure (Operator s)} {operand : Reader}
    (hoperator : ∀ {u u' : Input}, Squeezed u u' →
      Mirrored OperatorMirrors (operator u) (operator u'))
    (hoperand : Mirroring operand) : Mirroring (chain operator operand) :=
  fun h => (hoperand h).bind fun _ _ hleft => mirrored_chainFrom hoperator hoperand hleft

theorem mirrored_arguments (hnested : Mirroring nested) (h : Squeezed s s') :
    Mirrored Arguments.Mirrors (arguments nested s) (arguments nested s') := by
  induction s using arguments.induct generalizing s' with
  | case1 s ih =>
      rw [arguments.eq_def nested s, arguments.eq_def nested s']
      refine (hnested h).bind fun first first' hfirst => ?_
      have hcomma := mirrored_accept (c := ',') rfl hfirst.rest
      generalize accept ',' first.rest = found at hcomma ⊢
      generalize accept ',' first'.rest = found' at hcomma ⊢
      cases hcomma with
      | none => exact .ok ⟨by rw [hfirst.tree], hfirst.lastName, hfirst.rest⟩
      | @some rest rest' hrest =>
          refine (ih first rest hrest).bind fun more more' hmore => .ok ?_
          exact ⟨by rw [hfirst.tree, hmore.trees], hmore.lastName.or hfirst.lastName, hmore.rest⟩

theorem mirrored_missingColon {α β : Type} {related : α → β → Prop} {thenBranch : Parsed s}
    {thenBranch' : Parsed s'} (h : thenBranch.Mirrors thenBranch') :
    Mirrored related (.error (missingColon thenBranch)) (.error (missingColon thenBranch')) := by
  unfold missingColon
  rw [h.lastName]
  cases thenBranch.lastName with
  | none => exact mirrored_unexpected _ h.rest
  | some named =>
      simp only [Option.map_some]
      split
      · exact .error ⟨_, _⟩
      · exact mirrored_unexpected _ h.rest

theorem mirrored_logicalFrom (hcompare : Mirroring (compare scope nested))
    (hnested : Mirroring nested) {left : Parsed s} {left' : Parsed s'}
    (hleft : left.Mirrors left') :
    Mirrored Parsed.Mirrors (logicalFrom scope nested left) (logicalFrom scope nested left') := by
  have hjunction (left : Parsed s) {left' : Parsed s'} (hleft : left.Mirrors left') :
      OperatorMirrors ((doubled '&' .and left.rest).or (doubled '|' .or left.rest))
        ((doubled '&' .and left'.rest).or (doubled '|' .or left'.rest)) :=
    (mirrors_doubled rfl .and hleft.rest).or (mirrors_doubled rfl .or hleft.rest)
  induction left using logicalFrom.induct generalizing left' with
  | case1 left op rest hop ih =>
      rw [logicalFrom.eq_def scope nested left, logicalFrom.eq_def scope nested left']
      have hfound := hjunction left hleft
      rw [hop] at hfound
      simp only [hop]
      generalize (doubled '&' BinaryOp.and left'.rest).or (doubled '|' .or left'.rest) = found'
        at hfound ⊢
      cases hfound with
      | @some _ found' h =>
          obtain ⟨op', rest'⟩ := found'
          obtain ⟨rfl, hrest⟩ := h
          refine (hcompare hrest).bind fun right right' hright => ?_
          have htree : Expr.binary op' left'.tree right'.tree =
              .binary op' left.tree right.tree := by
            rw [hleft.tree, hright.tree]
          refine (mirrored_limited htree hright.rest).bind fun tree tree' hsame => ?_
          exact ih right tree ⟨hsame.symm, hright.lastName.or hleft.lastName, hright.rest⟩
  | case2 left hop hmark =>
      rw [logicalFrom.eq_def scope nested left, logicalFrom.eq_def scope nested left']
      have hfound := hjunction left hleft
      have hquestion := mirrored_accept (c := '?') rfl hleft.rest
      rw [hop] at hfound
      rw [hmark] at hquestion
      simp only [hop, hmark]
      generalize (doubled '&' BinaryOp.and left'.rest).or (doubled '|' .or left'.rest) = found'
        at hfound ⊢
      generalize accept '?' left'.rest = marked' at hquestion ⊢
      cases hfound
      cases hquestion
      exact .ok hleft
  | case3 left hop rest hmark ih =>
      rw [logicalFrom.eq_def scope nested left, logicalFrom.eq_def scope nested left']
      have hfound := hjunction left hleft
      have hquestion := mirrored_accept (c := '?') rfl hleft.rest
      rw [hop] at hfound
      rw [hmark] at hquestion
      simp only [hop, hmark]
      generalize (doubled '&' BinaryOp.and left'.rest).or (doubled '|' .or left'.rest) = found'
        at hfound ⊢
      generalize accept '?' left'.rest = marked' at hquestion ⊢
      cases hfound
      cases hquestion with
      | @some _ rest' hrest =>
          refine (hcompare hrest).bind fun thenBranch thenBranch' hthen => ?_
          have hcolon := mirrored_accept (c := ':') rfl hthen.rest
          generalize accept ':' thenBranch.rest = colon at hcolon ⊢
          generalize accept ':' thenBranch'.rest = colon' at hcolon ⊢
          cases hcolon with
          | none => exact mirrored_missingColon hthen
          | @some afterColon afterColon' hrest' =>
              refine (hnested hrest').bind fun elseBranch elseBranch' helse => ?_
              have htree : Expr.conditional left'.tree thenBranch'.tree elseBranch'.tree =
                  .conditional left.tree thenBranch.tree elseBranch.tree := by
                rw [hleft.tree, hthen.tree, helse.tree]
              refine (mirrored_limited htree helse.rest).bind fun tree tree' hsame => ?_
              exact ih thenBranch afterColon elseBranch tree ⟨hsame.symm,
                (helse.lastName.or hthen.lastName).or hleft.lastName, helse.rest⟩

end

/-! ### Operands -/

section

variable {scope : Scope} {nested : Reader} {s s' u u' : Input}

theorem mirrored_variableNamed {name name' : String} (hname : name' = name) (h : Squeezed s s') :
    Mirrored Eq (variableNamed scope name s) (variableNamed scope name' s') := by
  rw [hname, h.eq]
  unfold variableNamed
  split
  · exact .ok rfl
  · exact .error ⟨_, _⟩

theorem mirrored_call {name name' : String} (hname : name' = name) (h : Squeezed s s')
    {args args' : List (Expr String)} (hargs : args' = args) (hunread : Squeezed u u') :
    Mirrored Eq (call scope name s args u) (call scope name' s' args' u') := by
  rw [hname, hargs, h.eq]
  unfold call
  split
  · exact .error ⟨_, _⟩
  · split
    · exact mirrored_limited rfl hunread
    · exact .error ⟨_, _⟩

theorem mirrored_number {c : Char} (hc : startsNumber c = true) :
    Mirrored Operand.Mirrors (number c s hc) (number c (squeeze s) hc) := by
  have hcontinues : continuesNumber false c = true := by simp [continuesNumber, hc]
  have hcons : squeeze (c :: s) = c :: squeeze s :=
    squeeze_cons (isBlank_of_startsNumber hc) (isQuote_of_continuesNumber hcontinues) s
  have hrun := numberRun_squeeze false (c :: s)
  rw [hcons] at hrun
  have hsolid : StartsSolid (numberRun false (c :: s)).2 :=
    (numberRun_eq_iff.mp (Prod.eta (numberRun false (c :: s))).symm).startsSolid
  have hchars : (numberRun false (c :: squeeze s)).1 = (numberRun false (c :: s)).1 := by rw [hrun]
  cases hliteral : Decimal.literal? (numberRun false (c :: s)).1 with
  | none =>
      simp only [number, hchars, hliteral]
      rw [← hcons]
      exact .error ⟨_, _⟩
  | some d =>
      simp only [number, hchars, hliteral]
      exact .ok ⟨rfl, rfl, congrArg Prod.snd hrun, hsolid⟩

/-- The contents of a text constant keep their blanks, so both texts have the same constant. -/
theorem mirrored_string :
    Mirrored Operand.Mirrors (string '\x22' s) (string '\x22' (squeezeFrom (.inString false) s)) := by
  have hbody := stringBody_squeeze false s
  unfold string
  split
  · next r hr =>
    rw [hr, Option.map_some] at hbody
    split
    · next r' hr' =>
      obtain rfl := Option.some.inj (hr'.symm.trans hbody)
      exact .ok ⟨rfl, rfl, rfl, startsSolid_stringBody hr⟩
    · next hnone => cases hnone.symm.trans hbody
  · next hnone =>
    rw [hnone, Option.map_none] at hbody
    split
    · next r' hr' => cases hr'.symm.trans hbody
    · exact .error ⟨_, _⟩

theorem mirrored_quotedName {c : Char} (h : Squeezed (c :: s) (c :: squeezeFrom (.inName c) s)) :
    Mirrored Operand.Mirrors (quotedName scope c s)
      (quotedName scope c (squeezeFrom (.inName c) s)) := by
  have hname := upTo_squeeze c s
  unfold quotedName
  split
  · next r hr =>
    rw [hr, Option.map_some] at hname
    split
    · next r' hr' =>
      obtain rfl := Option.some.inj (hr'.symm.trans hname)
      refine (mirrored_variableNamed rfl h).bind fun tree tree' hsame => .ok ?_
      exact ⟨congrArg _ hsame.symm, rfl, rfl, startsSolid_upTo hr⟩
    · next hnone => cases hnone.symm.trans hname
  · next hnone =>
    rw [hnone, Option.map_none] at hname
    split
    · next r' hr' => cases hr'.symm.trans hname
    · exact .error ⟨_, _⟩

theorem mirrored_parenthesised (hnested : Mirroring nested) {inner : Shorter s}
    {inner' : Shorter s'} (h : Squeezed inner.1 inner'.1) :
    Mirrored Operand.Mirrors (parenthesised nested s inner) (parenthesised nested s' inner') := by
  refine (hnested h).bind fun p p' hp => ?_
  refine (mirrored_closeParenthesis hp.rest).bind fun rest rest' hrest => .ok ?_
  exact ⟨by rw [hp.tree], hp.lastName, hrest⟩

theorem mirrored_named (hnested : Mirroring nested) (h : Squeezed s s') :
    Mirrored Operand.Mirrors (named scope nested s) (named scope nested s') := by
  have hrun := bareName_squeeze s
  rw [← h.eq] at hrun
  have hchars : (bareName s').1 = (bareName s).1 := by rw [hrun]
  have hrest : Squeezed (bareName s).2 (bareName s').2 :=
    ⟨by rw [hrun], (bareName_eq_iff.mp (Prod.eta (bareName s)).symm).startsSolid⟩
  have hname : String.ofList (bareName s').1 = String.ofList (bareName s).1 :=
    congrArg String.ofList hchars
  have hlast : SameName (some (String.ofList (bareName s).1, s))
      (some (String.ofList (bareName s').1, s')) := by
    rw [SameName, Option.map_some, hname, h.eq]
  unfold named
  dsimp only
  by_cases hne : (bareName s).1 = []
  · rw [dif_pos hne, dif_pos (hchars.trans hne)]
    exact mirrored_unexpected _ h
  · rw [dif_neg hne, dif_neg (hchars ▸ hne)]
    have hopen := mirrored_accept (c := '(') rfl hrest
    generalize accept '(' (bareName s).2 = found at hopen ⊢
    generalize accept '(' (bareName s').2 = found' at hopen ⊢
    cases hopen with
    | none =>
        refine (mirrored_variableNamed hname h).bind fun tree tree' hsame => .ok ?_
        exact ⟨congrArg _ hsame.symm, hlast, hrest⟩
    | @some inner inner' hinner =>
        have hclose := mirrored_accept (c := ')') rfl hinner
        dsimp only
        generalize accept ')' inner.1 = found at hclose ⊢
        generalize accept ')' inner'.1 = found' at hclose ⊢
        cases hclose with
        | some hrest =>
            refine (mirrored_call hname h rfl hrest).bind fun tree tree' hsame => .ok ?_
            exact ⟨congrArg _ hsame.symm, hlast, hrest⟩
        | none =>
            refine (mirrored_arguments hnested hinner).bind fun args args' hargs => ?_
            refine (mirrored_closeParenthesis hargs.rest).bind fun rest rest' hrest => ?_
            refine (mirrored_call hname h hargs.trees hrest).bind fun tree tree' hsame => .ok ?_
            exact ⟨congrArg _ hsame.symm, hargs.lastName.or hlast, hrest⟩

theorem mirrored_unsigned (hnested : Mirroring nested) (h : Squeezed s s') :
    Mirrored Operand.Mirrors (unsigned scope nested s) (unsigned scope nested s') := by
  cases s with
  | nil =>
      obtain rfl : s' = [] := h.eq
      exact .error ⟨_, _⟩
  | cons c s =>
      have hsolid : isBlank c = false := startsSolid_cons.mp h.solid
      obtain rfl : s' = c :: squeezeFrom (Place.outside.behind c) s :=
        h.eq.trans (squeeze_cons_of_solid hsolid s)
      by_cases hname : c = '\x27' ∨ c = '\x60'
      · have hbehind : Place.outside.behind c = .inName c := by
          rcases hname with rfl | rfl <;> rfl
        rw [hbehind] at h ⊢
        simp only [unsigned, if_pos hname]
        exact mirrored_quotedName h
      by_cases hstring : c = '\x22'
      · subst hstring
        exact mirrored_string
      have hbehind : Place.outside.behind c = .outside := by
        simp only [Place.behind, if_neg hstring, if_neg hname]
      rw [hbehind] at h ⊢
      simp only [unsigned, if_neg hname, if_neg hstring]
      by_cases hnumber : startsNumber c = true
      · rw [dif_pos hnumber, dif_pos hnumber]
        exact mirrored_number hnumber
      · rw [dif_neg hnumber, dif_neg hnumber]
        have hopen := mirrored_accept (c := '(') rfl h
        generalize accept '(' (c :: s) = found at hopen ⊢
        generalize accept '(' (c :: squeezeFrom .outside s) = found' at hopen ⊢
        cases hopen with
        | none => exact mirrored_named hnested h
        | some hinner => exact mirrored_parenthesised hnested hinner

theorem mirroring_primary (hnested : Mirroring nested) : Mirroring (primary scope nested) := by
  intro s s' h
  unfold primary
  have hminus := mirrored_accept (c := '-') rfl h
  generalize accept '-' s = found at hminus ⊢
  generalize accept '-' s' = found' at hminus ⊢
  cases hminus with
  | none =>
      refine (mirrored_unsigned hnested h).bind fun p p' hp => .ok ?_
      exact ⟨by rw [hp.operand], hp.lastName, hp.rest⟩
  | some hinner =>
      refine (mirrored_unsigned hnested hinner).bind fun p p' hp => ?_
      have htree : p'.operand.tree scope.now true = p.operand.tree scope.now true := by
        rw [hp.operand]
      refine (mirrored_limited htree hp.rest).bind fun tree tree' hsame => .ok ?_
      exact ⟨hsame.symm, hp.lastName, hp.rest⟩

theorem mirroring_unary (hnested : Mirroring nested) : Mirroring (unary scope nested) := by
  intro s s' h
  unfold unary
  have hnot := mirrored_accept (c := '!') rfl h
  generalize accept '!' s = found at hnot ⊢
  generalize accept '!' s' = found' at hnot ⊢
  cases hnot with
  | none => exact mirroring_primary hnested h
  | some hinner =>
      refine (mirroring_primary hnested hinner).bind fun p p' hp => ?_
      have htree : Expr.unary .not p'.tree = .unary .not p.tree := by rw [hp.tree]
      refine (mirrored_limited htree hp.rest).bind fun tree tree' hsame => .ok ?_
      exact ⟨hsame.symm, hp.lastName, hp.rest⟩

theorem mirroring_compare (hnested : Mirroring nested) : Mirroring (compare scope nested) :=
  mirroring_chain mirrored_compareOperator (mirroring_chain mirrored_sumOperator
    (mirroring_chain mirrored_productOperator (mirroring_unary hnested)))

/-! ### Formulas -/

/-- Without its blanks an expression is read as the same tree, or fails in the same way. -/
theorem mirroring_expression (scope : Scope) (levels : Nat) :
    Mirroring (expression scope levels) := by
  induction levels with
  | zero =>
      intro s s' h
      rw [h.eq]
      exact .error ⟨_, _⟩
  | succ levels ih =>
      have hcompare : Mirroring (compare scope (expression scope levels)) := mirroring_compare ih
      intro s s' h
      exact (hcompare h).bind fun _ _ hleft => mirrored_logicalFrom hcompare ih hleft

/-- A whole text is read in the same way without its blanks. -/
theorem mirrored_formula (scope : Scope) (text : List Char) :
    Mirrored Eq (formula scope text) (formula scope (squeeze text)) := by
  have hstart : Squeezed (skipBlanks text) (skipBlanks (squeeze text)) :=
    ⟨by rw [skipBlanks_squeeze, squeeze_skipBlanks], startsSolid_skipBlanks text⟩
  refine (mirroring_expression scope (maxNesting + 1) hstart).bind fun p p' hp => ?_
  rw [hp.rest.eq, isEmpty_squeeze hp.rest.solid]
  split
  · exact .ok hp.tree.symm
  · have hsame : (⟨.trailingInput (String.ofList (squeeze p.rest)), squeeze p.rest⟩ : Failure) =
        Failure.squeezed ⟨.trailingInput (String.ofList p.rest), p.rest⟩ := by
      rw [Failure.squeezed, Fault.squeezed, String.toList_ofList]
    rw [hsame]
    exact .error _

/-! ### Places of faults -/

variable {u : Input} {e : Failure}

/-- A fault blames the end of the text, or a place outside of literals. -/
theorem Met.clear (h : Met scope u e) : e.unread = [] ∨ Clear u e.unread := by
  cases h with
  | unexpected =>
      cases u with
      | nil => exact .inl rfl
      | cons c s => exact .inr (.refl _)
  | @unfinished c s expected hhalf =>
      have hquote : isQuote c = false := by
        cases expected <;> cases hhalf <;> rfl
      exact .inr (.cons hquote (.skipBlanks s))
  | openString | openName => exact .inl rfl
  | number | «variable» | quotedVariable | function | arity | colon | height | nesting | trailing =>
      exact .inr (.refl _)

theorem clear_formula {text : List Char} (h : formula scope text = .error e) :
    e.unread = [] ∨ Clear text e.unread := by
  have htraced := traced_formula scope text
  rw [h] at htraced
  cases htraced with
  | error hclear _ hmet => exact hmet.clear.imp_right hclear.trans

end

end Parser

end ProcessFormula
