import ProcessFormula.Proofs.Grammar.Completeness
import ProcessFormula.Proofs.Grammar.Names

/-!
A text that has a tree but names an unknown variable is refused at the first such name. Up to that
name the parser reads what it would read if all names were known; every reader that is under way
there hands the error on.
-/

namespace ProcessFormula.Grammar

open Text Lexeme ProcessFormula.Parser

/-- The failure is that of the first lexeme in a row that names an unknown variable. -/
inductive Refused (scope : Scope) (s : Input) : List Token → Failure → Prop
  | name {before after : List Token} {token : Token} {t rest : Input} {name : String}
      (hbefore : Lexes .operand s before .operand t) (htoken : Reads .operand t token rest)
      (hname : token.variableName? = some name)
      (hknown : ∀ n ∈ variableNames before, scope.knows n = true)
      (hunknown : scope.knows name = false) :
      Refused scope s (before ++ token :: after) ⟨.unknownVariable name, t⟩

/-- A result is such a failure. -/
def Refuses {α : Type} (scope : Scope) (s : Input) (row : List Token) (result : Except Failure α) :
    Prop :=
  ∃ failure, result = .error failure ∧ Refused scope s row failure

section

variable {scope : Scope} {nested : Reader} {s u : Input} {row lead : List Token} {α β : Type}
  {result : Except Failure α} {result' : Except Failure β}

theorem Refused.append {failure : Failure} (h : Refused scope s row failure) (more : List Token) :
    Refused scope s (row ++ more) failure := by
  cases h with
  | name hbefore htoken hname hknown hunknown =>
      rw [List.append_assoc, List.cons_append]
      exact .name hbefore htoken hname hknown hunknown

theorem Refused.behind {failure : Failure} (h : Refused scope u row failure)
    (hlead : Lexes .operand s lead .operand u)
    (hknown : ∀ n ∈ variableNames lead, scope.knows n = true) :
    Refused scope s (lead ++ row) failure := by
  cases h with
  | name hbefore htoken hname hbeforeKnown hunknown =>
      rw [← List.append_assoc]
      refine .name (hlead.append hbefore) htoken hname ?_ hunknown
      rw [variableNames_append, List.forall_mem_append]
      exact ⟨hknown, hbeforeKnown⟩

/-- A failure is handed on, with more lexemes behind those that were read. -/
theorem Refuses.append (h : Refuses scope s row result) (more : List Token)
    (hresult : ∀ e, result = .error e → result' = .error e) :
    Refuses scope s (row ++ more) result' := by
  obtain ⟨failure, hfailure, hrefused⟩ := h
  exact ⟨failure, hresult failure hfailure, hrefused.append more⟩

/-- A failure is handed on, with more lexemes in front of those that were read. -/
theorem Refuses.behind (h : Refuses scope u row result) (hlead : Lexes .operand s lead .operand u)
    (hknown : ∀ n ∈ variableNames lead, scope.knows n = true)
    (hresult : ∀ e, result = .error e → result' = .error e) :
    Refuses scope s (lead ++ row) result' := by
  obtain ⟨failure, hfailure, hrefused⟩ := h
  exact ⟨failure, hresult failure hfailure, hrefused.behind hlead hknown⟩

/-- What the reader of a level makes of a text that starts with a row of lexemes in which a name is
unknown. -/
def Fails (scope : Scope) (nested : Reader) (s : Input) (row : List Token) : Level → Prop
  | .logical => Refuses scope s row (logical scope nested s)
  | .chain strength => Refuses scope s row (chainReader scope nested strength s)
  | .unary => Refuses scope s row (Parser.unary scope nested s)
  | .primary => Refuses scope s row (primary scope nested s) ∧ s.head? ≠ some '!'
  | .operand => Refuses scope s row (unsigned scope nested s) ∧ s.head? ≠ some '!' ∧
      s.head? ≠ some '-'

theorem Fails.operand {strength : Strength} (h : Fails scope nested s row (.operandOf strength)) :
    Refuses scope s row (operandReader scope nested strength s) := by
  cases strength with
  | junction | comparison | sum | product => exact h

theorem goOn_error {strength : Strength} {left : Parsed s} {op : BinaryOp}
    {after : Shorter left.rest} {e : Failure}
    (hop : operatorOf strength left.rest = .ok (some (op, after)))
    (hright : operandReader scope nested strength after.1 = .error e) :
    goOn scope nested strength left = .error e := by
  cases strength with
  | junction => exact logicalFrom_error (Except.ok.inj hop) hright
  | comparison | sum | product => exact chainFrom_error hop hright

end

/-! ### Rules of the grammar -/

/-- At every level, the parser refuses a text that starts with the row of lexemes if it does not
know all names in the tree. -/
def Refusing (full : Scope) (knows : String → Bool) (depth : Nat) (level : Level)
    (row : List Token) (tree : Expr String) : Prop :=
  ∀ (levels : Nat) (s rest : Input), depth + levels = maxNesting → StartsSolid s →
    Lexes .operand s row .operator rest → tree.height ≤ maxHeight →
    (¬ ∀ name ∈ tree.vars, knows name = true) →
    Fails { full with knows } (expression { full with knows } levels) s row level

section

variable {full : Scope} {knows : String → Bool} {depth : Nat}

/-- A row of known names and a lexeme without a name behind it have known names only. -/
theorem Derives.knows_row {level : Level} {row : List Token} {tree : Expr String} {token : Token}
    (h : Derives full depth level row tree) (hknown : ∀ name ∈ tree.vars, knows name = true)
    (htoken : token.variableName? = none) :
    ∀ n ∈ variableNames (row ++ [token]), knows n = true := by
  rwa [variableNames_append, h.variableNames_eq, variableNames_cons_of_none htoken,
    show variableNames [] = [] from rfl, List.append_nil]

theorem refusing_single {strength : Strength} {row : List Token} {tree : Expr String}
    (h : Refusing full knows depth (.operandOf strength) row tree) :
    Refusing full knows depth (.chain strength) row tree := by
  intro levels s rest hlevels hs hrow hheight hunknown
  obtain ⟨failure, hfailure, hrefused⟩ := (h levels s rest hlevels hs hrow hheight hunknown).operand
  exact ⟨failure, bind_eq_error hfailure, hrefused⟩

theorem refusing_chain {op : BinaryOp} {first second : List Token} {left right : Expr String}
    (hderives : Derives full depth (.chain op.strength) first left)
    (hleft : Refusing full knows depth (.chain op.strength) first left)
    (hright : Refusing full knows depth (.operandOf op.strength) second right) :
    Refusing full knows depth (.chain op.strength) (first ++ .operator op :: second)
      (.binary op left right) := by
  intro levels s rest hlevels hs hrow hheight hunknown
  obtain ⟨hfits, hfits'⟩ := height_binary_le hheight
  obtain ⟨t, hfirst, hmore⟩ := hderives.split hrow
  by_cases hknown : ∀ name ∈ left.vars, knows name = true
  · cases hmore with
    | cons hop hsecond =>
        have hother : ¬ ∀ name ∈ right.vars, knows name = true := fun hother =>
          hunknown (by simpa only [Expr.vars, List.forall_mem_append] using ⟨hknown, hother⟩)
        obtain ⟨p, hread, rfl, rfl⟩ := (hderives.transfer hknown).complete levels s t hlevels hs
          hfirst hfits (noTighter_of_reads hop (by rintro op' ⟨rfl⟩; exact Nat.le_refl _))
        obtain ⟨after, hafter, rfl⟩ := operatorOf_of_reads (hfirst.startsSolid hs) hop
        have hrefuses := (hright levels _ rest hlevels hop.startsSolid hsecond hfits'
          hother).operand
        rw [List.append_cons]
        exact hrefuses.behind (hfirst.append (.one hop)) (hderives.knows_row hknown rfl)
          fun e he => hread.trans (goOn_error hafter he)
  · exact (hleft levels s t hlevels hs hfirst hfits hknown).append _ fun e he => he

/-- An expression one nesting level further down is refused by the reader that the expression around
it uses. -/
theorem Refusing.nested {row : List Token} {tree : Expr String} (hdepth : depth < maxNesting)
    (h : Refusing full knows (depth + 1) .logical row tree) {levels : Nat} {s rest : Input}
    (hlevels : depth + levels = maxNesting) (hs : StartsSolid s)
    (hrow : Lexes .operand s row .operator rest) (hheight : tree.height ≤ maxHeight)
    (hunknown : ¬ ∀ name ∈ tree.vars, knows name = true) :
    Refuses { full with knows } s row (expression { full with knows } levels s) := by
  cases levels with
  | zero => omega
  | succ levels => exact h levels s rest (by omega) hs hrow hheight hunknown

theorem refusing_conditional {first second third : List Token}
    {condition thenBranch elseBranch : Expr String}
    (hfirst : Derives full depth (.chain .junction) first condition)
    (hsecond : Derives full depth (.chain .comparison) second thenBranch)
    (hdepth : depth < maxNesting)
    (hcondition : Refusing full knows depth (.chain .junction) first condition)
    (hthen : Refusing full knows depth (.chain .comparison) second thenBranch)
    (helse : Refusing full knows (depth + 1) .logical third elseBranch) :
    Refusing full knows depth .logical (first ++ .question :: (second ++ .colon :: third))
      (.conditional condition thenBranch elseBranch) := by
  intro levels s rest hlevels hs hrow hheight hunknown
  obtain ⟨hfits, hfits', hfits''⟩ := height_conditional_le hheight
  obtain ⟨t, hrow, hmore⟩ := hfirst.split hrow
  -- The unknown name is in the condition, or behind the question mark, or behind the colon.
  by_cases hknown : ∀ name ∈ condition.vars, knows name = true
  case neg => exact (hcondition levels s t hlevels hs hrow hfits hknown).append _ fun _ he => he
  cases hmore with
  | cons hquestion hmore =>
      have ht : StartsSolid t := hrow.startsSolid hs
      obtain ⟨p, hread, rfl, rfl⟩ := (hfirst.transfer hknown).complete levels s t hlevels hs hrow
        hfits (noTighter_of_reads hquestion (by rintro op ⟨⟩))
      obtain ⟨hop, after, hafter, rfl⟩ := question_of_reads ht hquestion
      have hlead := hrow.append (.one hquestion)
      have hleadKnown := hfirst.knows_row hknown (rfl : Token.question.variableName? = none)
      rw [List.append_cons]
      obtain ⟨u, hrow', hmore⟩ := hsecond.split hmore
      by_cases hknown' : ∀ name ∈ thenBranch.vars, knows name = true
      case neg =>
        have hbranch : Fails { full with knows } (expression { full with knows } levels) after.1
            second (.operandOf .junction) :=
          hthen levels _ u hlevels hquestion.startsSolid hrow' hfits' hknown'
        have hrefuses := hbranch.operand.append (.colon :: third) fun e he => he
        exact hrefuses.behind hlead hleadKnown fun e he =>
          hread.trans (logicalFrom_thenError hop hafter he)
      cases hmore with
      | cons hcolon hrow'' =>
          have hu : StartsSolid u := hrow'.startsSolid hquestion.startsSolid
          have hfound : Found { full with knows } (expression { full with knows } levels) after.1
              thenBranch u (.operandOf .junction) :=
            (hsecond.transfer hknown').complete levels _ u hlevels hquestion.startsSolid hrow'
              hfits'
          obtain ⟨q, hq, rfl, rfl⟩ :=
            hfound.operand hu (noTighter_of_reads hcolon (by rintro op ⟨⟩))
          obtain ⟨after', hafter', rfl⟩ := lone_colon.accept hu hcolon
          have hother : ¬ ∀ name ∈ elseBranch.vars, knows name = true := fun hother =>
            hunknown (by simpa only [Expr.vars, List.forall_mem_append] using
              ⟨⟨hknown, hknown'⟩, hother⟩)
          have hrefuses := helse.nested hdepth hlevels hcolon.startsSolid hrow'' hfits'' hother
          rw [show first ++ [Token.question] ++ (second ++ .colon :: third) =
            first ++ [.question] ++ (second ++ [.colon]) ++ third by simp]
          refine hrefuses.behind (hlead.append (hrow'.append (.one hcolon))) ?_ fun e he =>
            hread.trans (logicalFrom_elseError hop hafter hq hafter' he)
          rw [variableNames_append, List.forall_mem_append]
          exact ⟨hleadKnown, hsecond.knows_row hknown' rfl⟩

theorem refusing_plain {row : List Token} {tree : Expr String}
    (h : Refusing full knows depth .primary row tree) :
    Refusing full knows depth .unary row tree := by
  intro levels s rest hlevels hs hrow hheight hunknown
  obtain ⟨⟨failure, hfailure, hrefused⟩, hhead⟩ := h levels s rest hlevels hs hrow hheight hunknown
  refine ⟨failure, ?_, hrefused⟩
  simp only [Parser.unary, accept_eq_none_iff.mpr hhead, hfailure]

theorem refusing_not {row : List Token} {tree : Expr String}
    (h : Refusing full knows depth .primary row tree) :
    Refusing full knows depth .unary (.not :: row) (.unary .not tree) := by
  intro levels s rest hlevels hs hrow hheight hunknown
  cases hrow with
  | cons hnot hrow =>
      obtain ⟨after, hafter, rfl⟩ := lone_not.accept hs hnot
      obtain ⟨hrefuses, -⟩ :=
        h levels _ rest hlevels hnot.startsSolid hrow (height_unary_le hheight) hunknown
      refine hrefuses.behind (.one hnot) (by simp [variableNames, Token.variableName?])
        fun e he => ?_
      simp only [Parser.unary, hafter, he, bind, Except.bind]

theorem refusing_unsigned {row : List Token} {tree : Expr String}
    (h : Refusing full knows depth .operand row tree) :
    Refusing full knows depth .primary row tree := by
  intro levels s rest hlevels hs hrow hheight hunknown
  obtain ⟨⟨failure, hfailure, hrefused⟩, hnot, hminus⟩ :=
    h levels s rest hlevels hs hrow hheight hunknown
  refine ⟨⟨failure, ?_, hrefused⟩, hnot⟩
  simp only [primary, accept_eq_none_iff.mpr hminus, hfailure, bind, Except.bind]

theorem refusing_negative {row : List Token} {tree : Expr String}
    (h : Refusing full knows depth .operand row tree) :
    Refusing full knows depth .primary (.operator .sub :: row)
      (.binary .sub (.constant (.number full.now 0.0)) tree) := by
  intro levels s rest hlevels hs hrow hheight hunknown
  cases hrow with
  | cons hminus hrow =>
      obtain ⟨after, hafter, rfl⟩ := (lone_minus _).accept hs hminus
      obtain ⟨hrefuses, -⟩ := h levels _ rest hlevels hminus.startsSolid hrow
        (height_binary_le hheight).2 (by simpa only [Expr.vars, List.nil_append] using hunknown)
      constructor
      · refine hrefuses.behind (.one hminus) (by simp [variableNames, Token.variableName?])
          fun e he => ?_
        simp only [primary, hafter, he, bind, Except.bind]
      · obtain ⟨more, rfl, -⟩ := accept_eq_some hafter
        simp

theorem refusing_variable {token : Token} {name : String} (hkind : token.kind ≠ .mark)
    (hname : token.variableName? = some name) :
    Refusing full knows depth .operand [token] (.var name) := by
  intro levels s rest hlevels hs hrow _ hunknown
  have htoken : Reads .operand s token rest := hrow.reads
  have hknows : knows name = false := by simpa [Expr.vars] using hunknown
  refine ⟨⟨⟨.unknownVariable name, s⟩, ?_, ?_⟩, htoken.head_ne hs fun hc => hkind hc.symm,
    htoken.head_ne hs fun hc => hkind hc.symm⟩
  · obtain ⟨lastName, shorter, hread⟩ := @unsigned_variable { full with knows }
      (expression { full with knows } levels) _ _ _ _ hs htoken hname
    rw [hread]
    exact bind_eq_error (by simp [variableNamed, hknows])
  · exact @Refused.name _ _ [] [] _ _ _ _ .nil htoken hname (by simp [variableNames]) hknows

theorem refusing_parenthesised {row : List Token} {tree : Expr String} (hdepth : depth < maxNesting)
    (hderives : Derives full (depth + 1) .logical row tree)
    (h : Refusing full knows (depth + 1) .logical row tree) :
    Refusing full knows depth .operand (.opening :: (row ++ [.closing])) tree := by
  intro levels s rest hlevels hs hrow hheight hunknown
  cases hrow with
  | cons hopening hmore =>
      obtain ⟨t, hrow, -⟩ := hderives.split hmore
      obtain ⟨after, hafter, rfl⟩ := (lone_opening _).accept hs hopening
      have hrefuses :=
        h.nested hdepth hlevels hopening.startsSolid hrow hheight hunknown
      obtain ⟨more, rfl, -⟩ := accept_eq_some hafter
      refine ⟨?_, by simp, by simp⟩
      have hinner := hrefuses.append [.closing] fun e he => he
      refine hinner.behind (.one hopening) (by simp [variableNames, Token.variableName?])
        fun e he => ?_
      have hnumber : ¬ startsNumber '(' = true := by decide
      simp only [unsigned, Char.reduceEq, or_self, if_false, hnumber, hafter, parenthesised, he,
        bind, Except.bind]
      rfl

/-- Arguments are refused at the first unknown name, and there is one. -/
theorem refuses_arguments {args : List (List Token × Expr String)} (hdepth : depth < maxNesting)
    (hderives : ∀ arg ∈ args, Derives full (depth + 1) .logical arg.1 arg.2)
    (h : ∀ arg ∈ args, Refusing full knows (depth + 1) .logical arg.1 arg.2) {levels : Nat}
    {s rest : Input} (hlevels : depth + levels = maxNesting) (hs : StartsSolid s)
    (hrow : Lexes .operand s (separated (args.map Prod.fst) ++ [.closing]) .operator rest)
    (hheight : ∀ arg ∈ args, arg.2.height ≤ maxHeight)
    (hunknown : ¬ ∀ arg ∈ args, ∀ name ∈ arg.2.vars, knows name = true) :
    accept ')' s = none ∧
      Refuses { full with knows } s (separated (args.map Prod.fst) ++ [.closing])
        (arguments (expression { full with knows } levels) s) := by
  induction args generalizing s with
  | nil => exact absurd (by simp) hunknown
  | cons arg args ih =>
      obtain ⟨hrule, hrules⟩ := List.forall_mem_cons.mp hderives
      obtain ⟨harg, hargs⟩ := List.forall_mem_cons.mp h
      obtain ⟨hfits, hfits'⟩ := List.forall_mem_cons.mp hheight
      by_cases hknown : ∀ name ∈ arg.2.vars, knows name = true
      · have hother : ¬ ∀ arg ∈ args, ∀ name ∈ arg.2.vars, knows name = true := fun hother =>
          hunknown (List.forall_mem_cons.mpr ⟨hknown, hother⟩)
        have hne : args ≠ [] := by
          rintro rfl
          exact hother (by simp)
        rw [List.map_cons, separated_cons _ (by simpa using hne), List.append_assoc] at hrow ⊢
        refine ⟨accept_closing_eq_none hrule hs hrow, ?_⟩
        obtain ⟨t, hrow, hmore⟩ := hrule.split hrow
        cases hmore with
        | cons hcomma hmore =>
            obtain ⟨p, hp, -, rfl⟩ := (hrule.transfer hknown).complete.nested hdepth hlevels hs hrow
              hfits (Or.inr ⟨_, _, hcomma, Or.inr rfl⟩)
            obtain ⟨after, hafter, rfl⟩ := lone_comma.accept (hrow.startsSolid hs) hcomma
            obtain ⟨-, hrefuses⟩ := ih hrules hargs hcomma.startsSolid hmore hfits' hother
            rw [List.cons_append, List.append_cons]
            exact hrefuses.behind (hrow.append (.one hcomma)) (hrule.knows_row hknown rfl)
              fun e he => arguments_moreError hp hafter he
      · obtain ⟨more, hmore⟩ := separated_eq_append arg.1 (args.map Prod.fst)
        rw [List.map_cons, hmore, List.append_assoc] at hrow ⊢
        refine ⟨accept_closing_eq_none hrule hs hrow, ?_⟩
        obtain ⟨t, hrow, -⟩ := hrule.split hrow
        exact (harg.nested hdepth hlevels hs hrow hfits hknown).append _
          fun e he => arguments_error he

theorem refusing_call {name : String} {f : Callable} {args : List (List Token × Expr String)}
    (hdepth : args ≠ [] → depth < maxNesting)
    (hderives : ∀ arg ∈ args, Derives full (depth + 1) .logical arg.1 arg.2)
    (h : ∀ arg ∈ args, Refusing full knows (depth + 1) .logical arg.1 arg.2) :
    Refusing full knows depth .operand
      (.function name :: .opening :: (separated (args.map Prod.fst) ++ [.closing]))
      (.call f (args.map Prod.snd)) := by
  intro levels s rest hlevels hs hrow hheight hunknown
  have hunknown' : ¬ ∀ arg ∈ args, ∀ name ∈ arg.2.vars, knows name = true := by
    intro hknown
    apply hunknown
    simp only [Expr.vars, Expr.mem_allVars_iff]
    rintro n ⟨tree, htree, hn⟩
    obtain ⟨arg, harg, rfl⟩ := List.mem_map.mp htree
    exact hknown arg harg n hn
  have hne : args ≠ [] := by
    rintro rfl
    exact hunknown' (by simp)
  cases hrow with
  | cons hfunction hmore =>
  cases hmore with
  | cons hopening hmore =>
      refine ⟨?_, hfunction.head_ne hs (by rintro ⟨⟩), hfunction.head_ne hs (by rintro ⟨⟩)⟩
      obtain ⟨hclose, hrefuses⟩ := refuses_arguments (hdepth hne) hderives h hlevels
        hopening.startsSolid hmore (height_args_le hheight) hunknown'
      rw [unsigned_eq_named hs hfunction rfl]
      have hlead : Lexes .operand s [.function name, .opening] .operand _ :=
        .cons hfunction (.one hopening)
      obtain ⟨hname, inner, rfl, rfl, hinner⟩ := function_eq hfunction hopening
      refine hrefuses.behind hlead (by simp [variableNames, Token.variableName?]) fun e he => ?_
      simp only [named, dif_neg hname, hinner, hclose, he, bind, Except.bind]

end

/-- The parser refuses a derived row of lexemes of which it does not know all names. -/
theorem Derives.refusing {full : Scope} {knows : String → Bool} {depth : Nat} {level : Level}
    {row : List Token} {tree : Expr String} (h : Derives full depth level row tree) :
    Refusing full knows depth level row tree := by
  induction h with
  | chains _ ih => exact ih
  | conditional hcondition hthen hdepth _ ihcondition ihthen ihelse =>
      exact refusing_conditional hcondition hthen hdepth ihcondition ihthen ihelse
  | single _ ih => exact refusing_single ih
  | chain hleft _ ihleft ihright => exact refusing_chain hleft ihleft ihright
  | not _ ih => exact refusing_not ih
  | plain _ ih => exact refusing_plain ih
  | number | negativeNumber | text | negativeText =>
      intro levels s rest _ _ _ _ hunknown
      exact absurd (by simp [Expr.vars]) hunknown
  | unsigned _ ih => exact refusing_unsigned ih
  | negative _ ih => exact refusing_negative ih
  | quoted | bare => exact refusing_variable (by simp [Token.kind]) rfl
  | parenthesised hdepth h ih => exact refusing_parenthesised hdepth h ih
  | call _ _ hdepth hargs ih => exact refusing_call hdepth hargs ih

/-- A text that has a tree is refused if some name in it is not known, at the first such name. -/
theorem parse_of_unknown {full : Scope} {knows : String → Bool} {text : String}
    {tokens : List Token} {tree : Expr String}
    (hlexes : Lexes .operand (skipBlanks text.toList) tokens .operator [])
    (hderives : Derives full 0 .logical tokens tree) (hheight : tree.height ≤ maxHeight)
    (hunknown : ¬ ∀ name ∈ tree.vars, knows name = true) :
    ∃ failure, Refused { full with knows } (skipBlanks text.toList) tokens failure ∧
      parse { full with knows } text =
        .error ⟨failure.fault, text, text.toList.length - failure.unread.length⟩ := by
  obtain ⟨failure, hfailure, hrefused⟩ := hderives.refusing maxNesting _ [] (Nat.zero_add _)
    (startsSolid_skipBlanks _) hlexes hheight hunknown
  have hread : expression { full with knows } (maxNesting + 1) (skipBlanks text.toList) =
      .error failure := hfailure
  refine ⟨failure, hrefused, ?_⟩
  simp only [parse, formula, hread, bind, Except.bind]

end ProcessFormula.Grammar
