import ProcessFormula.Proofs.Grammar.PrintedLexemes

/-!
The printed text of a tree is read back as that tree. The grammar derives every subtree from what is
printed for it as an operand, parentheses being printed around whatever is none.
-/

namespace ProcessFormula

open Grammar

def Expr.printedLevel {ν : Type} : Expr ν → Level
  | .unary _ _ => .unary
  | _ => .primary

namespace Grammar

open Text Lexeme ProcessFormula.Parser

/-- The text of a tree is read back as the tree, but for the time of its constants. -/
structure Printed (scope : Scope) (depth : Nat) (e : Expr String) : Prop where
  starts : StartsOperand (e.text id).toList
  written : ∃ row, Derives scope depth e.printedLevel row (e.atTime scope.now) ∧
    Written (e.text id).toList row e.endsBare

variable {scope : Scope} {depth : Nat} {row : List Token} {tree : Expr String}

/-! ### Levels -/

theorem derives_operandOf (h : Derives scope depth .unary row tree) (strength : Strength) :
    Derives scope depth (.operandOf strength) row tree := by
  have hproduct : Derives scope depth (.chain .product) row tree := .single h
  have hsum : Derives scope depth (.chain .sum) row tree := .single hproduct
  cases strength with
  | junction => exact @Derives.single scope depth .comparison row tree hsum
  | comparison => exact hsum
  | sum => exact hproduct
  | product => exact h

theorem derives_chain (h : Derives scope depth .unary row tree) (strength : Strength) :
    Derives scope depth (.chain strength) row tree :=
  .single (derives_operandOf h strength)

theorem logical_of_chain {strength : Strength}
    (h : Derives scope depth (.chain strength) row tree) :
    Derives scope depth .logical row tree := by
  cases strength with
  | junction => exact .chains h
  | comparison => exact .chains (@Derives.single scope depth .junction row tree h)
  | sum =>
      have hcomparison := @Derives.single scope depth .comparison row tree h
      exact .chains (@Derives.single scope depth .junction row tree hcomparison)
  | product =>
      have hsum := @Derives.single scope depth .sum row tree h
      have hcomparison := @Derives.single scope depth .comparison row tree hsum
      exact .chains (@Derives.single scope depth .junction row tree hcomparison)

/-- A printed tree can stand as an operand as it is printed. -/
theorem Printed.operand {e : Expr String} (h : Printed scope depth e) :
    ∃ row, Derives scope depth .unary row (e.atTime scope.now) ∧
      Written (e.text id).toList row e.endsBare := by
  obtain ⟨row, hderives, hwritten⟩ := h.written
  refine ⟨row, ?_, hwritten⟩
  cases e with
  | unary => exact hderives
  | constant | var | binary | conditional | call => exact .plain hderives

/-! ### Leaves -/

/-- A finite number is printed so that it reads back as itself. -/
theorem printed_number (scope : Scope) (depth : Nat) (time : Timestamp) {x : Float}
    (hx : x.isFinite = true) : Printed scope depth (.constant (.number time x)) := by
  obtain ⟨negative, s, n, htext, hnumeral, rfl⟩ := Layout.text_readsBack Layout.tree_pointed hx
  obtain ⟨c, more, hs, hdigit⟩ := head_numeral hnumeral
  have hstarts : StartsOperand s := by
    refine ⟨c, more, hs, isBlank_of_isDigit hdigit, ?_⟩
    rintro rfl
    cases hdigit
  have hwritten := written_number hnumeral
  cases negative with
  | false =>
      have hs' : ((Expr.constant (.number time (n.toFloat false))).text id).toList = s := htext
      exact ⟨hs' ▸ hstarts, [.number (n.toFloat false)], .number _, hs' ▸ hwritten⟩
  | true =>
      have hs' : ((Expr.constant (.number time (-n.toFloat false))).text id).toList = '-' :: s :=
        htext
      exact ⟨hs' ▸ ⟨'-', s, rfl, by decide⟩, [.operator .sub, .number (n.toFloat false)],
        .negativeNumber _, hs' ▸ hwritten.behind hstarts (lone_minus .operand) rfl⟩

/-- A text is printed between double quotes. -/
theorem printed_text (scope : Scope) (depth : Nat) (time : Timestamp) {s : String}
    (hquote : '\x22' ∉ s.toList) (hbackslash : '\\' ∉ s.toList) :
    Printed scope depth (.constant (.text time s)) := by
  have htext : ((Expr.constant (.text time s) : Expr String).text id).toList =
      '\x22' :: (s.toList ++ ['\x22']) := by
    simp [Expr.text, Expr.constantText, Value.text]
  exact ⟨htext ▸ ⟨'\x22', _, rfl, by decide⟩, [.text s], .text s,
    htext ▸ written_text hquote hbackslash false⟩

theorem startsOperand_name {chars : List Char} (h : NameText chars) : StartsOperand chars := by
  obtain ⟨c, hc, -⟩ := h.head
  obtain ⟨more, rfl⟩ := List.head?_eq_some_iff.mp hc
  have hname := h.all c (by simp)
  refine ⟨c, more, rfl, isBlank_of_isNameChar hname, ?_⟩
  rintro rfl
  revert hname
  decide

theorem nameText_of_isBareName {name : String} (h : Expr.isBareName name = true)
    (hhead : ∀ c ∈ name.toList.head?, c.isDigit = false) : NameText name.toList := by
  simp only [Expr.isBareName, Bool.and_eq_true, Bool.not_eq_true'] at h
  obtain ⟨hempty, hall⟩ := h
  obtain ⟨c, more, hname⟩ : ∃ c more, name.toList = c :: more := by
    apply List.exists_cons_of_ne_nil
    simpa using hempty
  rw [hname] at hall hhead ⊢
  exact nameText_cons_iff.mpr ⟨hhead c rfl, hall⟩

/-- A variable is printed by its name, with quotes where it needs some. -/
theorem printed_var {registry : Registry} {name : String} (hknown : scope.knows name = true)
    (h : (Expr.var name).Presentable registry) : Printed scope depth (.var name) := by
  simp only [Expr.Presentable] at h
  by_cases hbare : Expr.isBareName name = true
  · rw [if_pos hbare] at h
    have hname := nameText_of_isBareName hbare h
    have htext : ((Expr.var name).text id).toList = name.toList := by
      simp [Expr.text, Expr.nameText, hbare]
    have hends : (Expr.var name).endsBare = true := hbare
    refine ⟨htext ▸ startsOperand_name hname, [.bare name], .unsigned (.bare hknown), ?_⟩
    rw [hends, htext]
    exact written_bare hname
  · rw [if_neg hbare] at h
    have htext : ((Expr.var name).text id).toList = '\x27' :: (name.toList ++ ['\x27']) := by
      simp [Expr.text, Expr.nameText, hbare]
    exact ⟨htext ▸ ⟨'\x27', _, rfl, by decide⟩, [.quoted name], .unsigned (.quoted hknown),
      htext ▸ written_quoted h _⟩

/-! ### Branches -/

/-- A negation is printed in front of its operand. -/
theorem printed_not {operand : Expr String} (h : Printed scope depth operand)
    (hlevel : operand.printedLevel = .primary) : Printed scope depth (.unary .not operand) := by
  obtain ⟨hstarts, row, hderives, hwritten⟩ := h
  have htext : ((Expr.unary .not operand).text id).toList = '!' :: (operand.text id).toList := by
    simp [Expr.text, UnaryOp.symbol]
  rw [hlevel] at hderives
  exact ⟨htext ▸ ⟨'!', _, rfl, by decide⟩, .not :: row, .not hderives,
    htext ▸ hwritten.behind hstarts lone_not rfl⟩

/-- An operator is printed in parentheses, so that its operands need none to be kept apart. -/
theorem printed_binary {op : BinaryOp} {left right : Expr String} (hdepth : depth < maxNesting)
    (hleft : Printed scope (depth + 1) left) (hright : Printed scope (depth + 1) right) :
    Printed scope depth (.binary op left right) := by
  obtain ⟨first, hfirst, hwritten⟩ := hleft.operand
  obtain ⟨second, hsecond, hwritten'⟩ := hright.operand
  have htext : ((Expr.binary op left right).text id).toList =
      '(' :: ((left.text id).toList ++ ' ' :: (op.symbol.toList ++ ' ' :: (right.text id).toList) ++
        [')']) := by
    simp [Expr.text]
  have hlexes : ∀ rest, Lexes .operand ((left.text id).toList ++
      ' ' :: (op.symbol.toList ++ ' ' :: (right.text id).toList) ++ ')' :: rest)
      (first ++ .operator op :: second) .operator (')' :: rest) := by
    intro rest
    have hclosing := hwritten'.lexes (show ')' ∈ stops by decide) (fun _ => by decide) rest
    have hsymbol := reads_symbol op (hright.starts.append (')' :: rest))
    obtain ⟨c, symbol, hc, hstop, hcolon⟩ : ∃ c symbol, op.symbol.toList = c :: symbol ∧
        c ∈ stops ∧ c ≠ ':' := by
      cases op <;> simp [BinaryOp.symbol, stops]
    rw [hc] at hsymbol ⊢
    have hbefore := hwritten.lexes_blank hstop (fun _ => hcolon)
      (symbol ++ ' ' :: ((right.text id).toList ++ ')' :: rest))
    simpa using hbefore.append (.cons hsymbol hclosing)
  have hderives : Derives scope (depth + 1) .logical (first ++ .operator op :: second)
      ((Expr.binary op left right).atTime scope.now) :=
    logical_of_chain (.chain (derives_chain hfirst op.strength)
      (derives_operandOf hsecond op.strength))
  exact ⟨htext ▸ ⟨'(', _, rfl, by decide⟩, _, .unsigned (.parenthesised hdepth hderives),
    htext ▸ written_parenthesised (hleft.starts.append _) hlexes _⟩

/-- The else branch stands two levels further in: in the parentheses and behind the colon. -/
theorem printed_conditional {condition thenBranch elseBranch : Expr String}
    (hdepth : depth + 1 < maxNesting) (hcondition : Printed scope (depth + 1) condition)
    (hthen : Printed scope (depth + 1) thenBranch)
    (helse : Printed scope (depth + 1 + 1) elseBranch) (hbare : thenBranch.endsBare = false) :
    Printed scope depth (.conditional condition thenBranch elseBranch) := by
  obtain ⟨first, hfirst, hwritten⟩ := hcondition.operand
  obtain ⟨second, hsecond, hwritten'⟩ := hthen.operand
  obtain ⟨third, hthird, hwritten''⟩ := helse.operand
  have htext : ((Expr.conditional condition thenBranch elseBranch).text id).toList =
      '(' :: ((condition.text id).toList ++ ' ' :: '?' :: ' ' :: ((thenBranch.text id).toList ++
        ' ' :: ':' :: ' ' :: (elseBranch.text id).toList) ++ [')']) := by
    simp [Expr.text]
  have hlexes : ∀ rest, Lexes .operand ((condition.text id).toList ++
      ' ' :: '?' :: ' ' :: ((thenBranch.text id).toList ++
        ' ' :: ':' :: ' ' :: (elseBranch.text id).toList) ++ ')' :: rest)
      (first ++ .question :: (second ++ .colon :: third)) .operator (')' :: rest) := by
    intro rest
    have hclosing := hwritten''.lexes (show ')' ∈ stops by decide) (fun _ => by decide) rest
    have hcolon := reads_mark lone_colon (helse.starts.append (')' :: rest))
    have hend := hwritten'.lexes_blank (show ':' ∈ stops by decide) (by simp [hbare])
      (' ' :: ((elseBranch.text id).toList ++ ')' :: rest))
    have hquestion := reads_mark lone_question (hthen.starts.append
      (' ' :: ':' :: ' ' :: ((elseBranch.text id).toList ++ ')' :: rest)))
    have hbefore := hwritten.lexes_blank (show '?' ∈ stops by decide) (fun _ => by decide)
      (' ' :: ((thenBranch.text id).toList ++
        ' ' :: ':' :: ' ' :: ((elseBranch.text id).toList ++ ')' :: rest)))
    simpa using hbefore.append (.cons hquestion (hend.append (.cons hcolon hclosing)))
  have hderives : Derives scope (depth + 1) .logical
      (first ++ .question :: (second ++ .colon :: third))
      ((Expr.conditional condition thenBranch elseBranch).atTime scope.now) :=
    .conditional (derives_chain hfirst _) (derives_chain hsecond _) hdepth
      (logical_of_chain (derives_chain hthird .product))
  exact ⟨htext ▸ ⟨'(', _, rfl, by decide⟩, _,
    .unsigned (.parenthesised (Nat.lt_of_succ_lt hdepth) hderives),
    htext ▸ written_parenthesised (hcondition.starts.append _) hlexes _⟩

def argumentsText (args : List (Expr String)) : List Char :=
  (", ".intercalate (Expr.texts id args)).toList

theorem argumentsText_one (arg : Expr String) : argumentsText [arg] = (arg.text id).toList := by
  simp [argumentsText, Expr.texts]

theorem argumentsText_cons (arg next : Expr String) (args : List (Expr String)) :
    argumentsText (arg :: next :: args) =
      (arg.text id).toList ++ ',' :: ' ' :: argumentsText (next :: args) := by
  simp [argumentsText, Expr.texts, String.toList_intercalate]

/-- Arguments are read back up to the closing parenthesis behind them. -/
theorem printed_arguments {args : List (Expr String)}
    (h : ∀ arg ∈ args, Printed scope (depth + 1) arg) :
    (args ≠ [] → StartsOperand (argumentsText args)) ∧
      ∃ pairs : List (List Token × Expr String),
        pairs.map Prod.snd = args.map (Expr.atTime scope.now) ∧
        (∀ pair ∈ pairs, Derives scope (depth + 1) .logical pair.1 pair.2) ∧
        ∀ rest, Lexes .operand (argumentsText args ++ ')' :: rest)
          (separated (pairs.map Prod.fst) ++ [.closing]) .operator (skipBlanks rest) := by
  induction args with
  | nil =>
      refine ⟨fun hne => absurd rfl hne, [], rfl, by simp, fun rest => ?_⟩
      exact .one ((lone_closing .operand).reads_cons rest)
  | cons arg args ih =>
      obtain ⟨harg, hargs⟩ := List.forall_mem_cons.mp h
      obtain ⟨row, hderives, hwritten⟩ := harg.operand
      have hlogical := logical_of_chain (derives_chain hderives .product)
      obtain ⟨hstarts, pairs, hpairs, hall, hlexes⟩ := ih hargs
      cases args with
      | nil =>
          refine ⟨fun _ => argumentsText_one arg ▸ harg.starts, [(row, arg.atTime scope.now)], rfl,
            by simpa using hlogical, fun rest => ?_⟩
          rw [argumentsText_one]
          have hlast := hwritten.lexes (show ')' ∈ stops by decide) (fun _ => by decide) rest
          have hclosing : Reads .operator (')' :: rest) .closing (skipBlanks rest) :=
            (lone_closing .operator).reads_cons rest
          have hlexes : Lexes .operand _ _ .operator _ := hlast.append (.one hclosing)
          simpa [separated_one] using hlexes
      | cons next args =>
          have hne : pairs.map Prod.fst ≠ [] := by
            intro hnil
            simp only [List.map_eq_nil_iff] at hnil
            subst hnil
            cases hpairs
          refine ⟨fun _ => argumentsText_cons arg next args ▸ harg.starts.append _,
            (row, arg.atTime scope.now) :: pairs, by simp [hpairs],
            List.forall_mem_cons.mpr ⟨hlogical, hall⟩, fun rest => ?_⟩
          rw [argumentsText_cons, List.map_cons, separated_cons row hne]
          have hfirst := hwritten.lexes (show ',' ∈ stops by decide) (fun _ => by decide)
            (' ' :: (argumentsText (next :: args) ++ ')' :: rest))
          have hcomma := reads_mark lone_comma ((hstarts (by simp)).append (')' :: rest))
          simpa using hfirst.append (.cons hcomma (hlexes rest))

/-- A call is printed with its arguments one level further in. -/
theorem printed_call {f : Callable} {args : List (Expr String)} (hname : NameText f.name.toList)
    (hresolve : scope.resolve f.name = some f) (harity : f.arity.accepts args.length = true)
    (hdepth : args ≠ [] → depth < maxNesting) (h : ∀ arg ∈ args, Printed scope (depth + 1) arg) :
    Printed scope depth (.call f args) := by
  obtain ⟨hstarts, pairs, hpairs, hall, hlexes⟩ := printed_arguments h
  have hlength : pairs.length = args.length := by
    simpa using congrArg List.length hpairs
  have htext : ((Expr.call f args).text id).toList =
      f.name.toList ++ '(' :: (argumentsText args ++ [')']) := by
    simp [Expr.text, argumentsText]
  have hderives := @Derives.call scope depth f.name f pairs hresolve (by rwa [hlength])
    (fun hne => hdepth fun hnil => hne (List.length_eq_zero_iff.mp (by simp [hlength, hnil]))) hall
  rw [hpairs, ← Expr.allAtTime_eq_map] at hderives
  refine ⟨htext ▸ (startsOperand_name hname).append _, _, .unsigned hderives, ?_⟩
  rw [htext]
  intro rest _
  have hsolid : StartsSolid (argumentsText args ++ ')' :: rest) := by
    by_cases hnil : args = []
    · subst hnil
      exact startsSolid_cons.mpr (by decide)
    · exact ((hstarts hnil).append _).startsSolid
  have hfunction := reads_function hname (argumentsText args ++ ')' :: rest)
  have hopening := (lone_opening .operator).reads_cons (argumentsText args ++ ')' :: rest)
  rw [skipBlanks_of_startsSolid hsolid] at hopening
  have hcall : Lexes .operand _ _ .operator _ := .cons hfunction (.cons hopening (hlexes rest))
  simpa using hcall

/-! ### Trees -/

theorem nameText_of_resolve {registry : Registry} {name : String} {f : Callable}
    (hname : NameText name.toList) (hf : registry.resolve name = some f) :
    NameText f.name.toList := by
  rcases Option.or_eq_some_iff.mp hf with hplugin | ⟨-, hbuiltin⟩
  · have hsame : f.name = name := by simpa using List.find?_some hplugin
    rwa [hsame]
  · have hall : ∀ g ∈ Builtin.all, g.name.toList.all isNameChar = true ∧
        g.name.toList.head?.any (fun c => !startsNumber c) = true := by
      decide
    obtain ⟨hchars, hhead⟩ := hall f (List.mem_of_find?_eq_some hbuiltin)
    exact ⟨List.all_eq_true.mp hchars, by simpa [Option.any_eq_true] using hhead⟩

/-- The condition on then branches covers all that end with a bare name. -/
theorem endsBare_thenBranch {registry : Registry} {knows : String → Bool}
    {resolve : String → Option Callable} {condition thenBranch elseBranch : Expr String}
    (hconditional : (Expr.conditional condition thenBranch elseBranch).Presentable registry)
    (hfrom : thenBranch.Everywhere (Expr.FromText knows resolve))
    (hpresentable : thenBranch.Presentable registry) : thenBranch.endsBare = false := by
  cases thenBranch with
  | constant | binary | conditional | call => rfl
  | var name => exact hconditional
  | unary op operand =>
      obtain rfl : op = .not := hfrom.1
      cases operand with
      | constant | binary | conditional | call => rfl
      | var name => exact hconditional
      | unary op' operand =>
          obtain rfl : op' = .not := hfrom.2.1
          exact hpresentable.elim

section

variable {registry : Registry} {knows : String → Bool} {now : Timestamp}

mutual

/-- What was read from text and is presentable is printed as text for it. -/
theorem printed {depth : Nat} {e : Expr String}
    (hfrom : e.Everywhere (Expr.FromText knows registry.resolve))
    (hpresentable : e.Everywhere (Expr.Presentable registry))
    (hnesting : depth + e.printedNesting ≤ maxNesting) :
    Printed ⟨knows, registry.resolve, now⟩ depth e := by
  match e with
  | .constant value =>
      have hvalue := hpresentable.root
      rcases hfrom.root with ⟨time, x, rfl⟩ | ⟨time, s, rfl, hbackslash⟩
      · exact printed_number _ depth time hvalue
      · exact printed_text _ depth time hvalue hbackslash
  | .var name => exact printed_var hfrom.root hpresentable.root
  | .unary op operand =>
      obtain ⟨rfl, hoperand⟩ := hfrom
      refine printed_not (printed hoperand hpresentable.2 hnesting) ?_
      cases operand with
      | unary op' operand =>
          obtain rfl : op' = .not := hoperand.1
          exact hpresentable.1.elim
      | constant | var | binary | conditional | call => rfl
  | .binary op left right =>
      simp only [Expr.printedNesting] at hnesting
      exact printed_binary (by omega) (printed hfrom.2.1 hpresentable.2.1 (by omega))
        (printed hfrom.2.2 hpresentable.2.2 (by omega))
  | .conditional condition thenBranch elseBranch =>
      obtain ⟨-, hcondition, hthen, helse⟩ := hfrom
      obtain ⟨hroot, hcondition', hthen', helse'⟩ := hpresentable
      simp only [Expr.printedNesting] at hnesting
      exact printed_conditional (by omega) (printed hcondition hcondition' (by omega))
        (printed hthen hthen' (by omega)) (printed helse helse' (by omega))
        (endsBare_thenBranch hroot hthen hthen'.root)
  | .call f args =>
      obtain ⟨⟨harity, name, hname, hfound⟩, hargs⟩ := hfrom
      refine printed_call (nameText_of_resolve hname hfound) hpresentable.1 harity (fun hne => ?_)
        (printedAll hargs hpresentable.2 hnesting)
      obtain ⟨arg, harg⟩ := List.exists_mem_of_ne_nil args hne
      have hdepth := Expr.printedNesting_le_argumentNesting harg
      simp only [Expr.printedNesting] at hnesting
      omega

theorem printedAll {depth : Nat} {args : List (Expr String)}
    (hfrom : Expr.AllEverywhere (Expr.FromText knows registry.resolve) args)
    (hpresentable : Expr.AllEverywhere (Expr.Presentable registry) args)
    (hnesting : depth + Expr.argumentNesting args ≤ maxNesting) :
    ∀ arg ∈ args, Printed ⟨knows, registry.resolve, now⟩ (depth + 1) arg := by
  match args with
  | [] => simp
  | e :: rest =>
      simp only [Expr.argumentNesting] at hnesting
      exact List.forall_mem_cons.mpr ⟨printed hfrom.1 hpresentable.1 (by omega),
        printedAll hfrom.2 hpresentable.2 (by omega)⟩

end

end

/-- The text of a tree is formula text for the tree. -/
theorem Printed.sentence {e : Expr String} (h : Printed scope 0 e)
    (hheight : e.height ≤ maxHeight) : Sentence scope (e.text id) (e.atTime scope.now) := by
  obtain ⟨row, hderives, hwritten⟩ := h.operand
  have hlexes := hwritten [] (by simp [Follows, skipBlanks])
  rw [List.append_nil] at hlexes
  refine ⟨row, ?_, logical_of_chain (derives_chain hderives .product), by simpa using hheight⟩
  rwa [skipBlanks_of_startsSolid h.starts.startsSolid]

end Grammar

end ProcessFormula
