import ProcessFormula.Proofs.Grammar.Operands

/-!
Whatever the grammar derives, the parser reads. A reader takes the lexemes of a tree off a text only
if what follows does not belong to the tree as well, so the lexeme behind the tree must not be an
operator that binds tighter than those around it.
-/

namespace ProcessFormula

/-- Operators of a higher rank bind tighter. -/
def Strength.rank : Strength → Nat
  | .junction => 0
  | .comparison => 1
  | .sum => 2
  | .product => 3

namespace Grammar

open Text Lexeme ProcessFormula.Parser

/-- The reader takes a text up to `rest` for `tree`. -/
def Finds (reader : Reader) (s : Input) (tree : Expr String) (rest : Input) : Prop :=
  ∃ p, reader s = .ok p ∧ p.tree = tree ∧ p.rest = rest

/-- The text does not go on with an operator that binds tighter. -/
def NoTighter (strength : Strength) (s : Input) : Prop :=
  s = [] ∨ ∃ token rest, Reads .operator s token rest ∧
    ∀ op, token = .operator op → op.strength.rank ≤ strength.rank

/-- The text does not go on with a part of the same expression. -/
def Over (s : Input) : Prop :=
  s = [] ∨ ∃ token rest, Reads .operator s token rest ∧ (token = .closing ∨ token = .comma)

theorem Over.noTighter {s : Input} (h : Over s) (strength : Strength) : NoTighter strength s := by
  rcases h with rfl | ⟨token, rest, hreads, htoken⟩
  · exact Or.inl rfl
  · refine Or.inr ⟨token, rest, hreads, ?_⟩
    rintro op rfl
    simp at htoken

/-- The operator that comes next says whether an operand ends here. -/
theorem noTighter_of_reads {strength : Strength} {token : Token} {s rest : Input}
    (h : Reads .operator s token rest)
    (htoken : ∀ op, token = .operator op → op.strength.rank ≤ strength.rank) :
    NoTighter strength s :=
  Or.inr ⟨token, rest, h, htoken⟩

/-- The parser does not find an operator that binds tighter. -/
theorem NoTighter.operatorOf_eq_none {strength tighter : Strength} {s : Input}
    (h : NoTighter strength s) (hs : StartsSolid s) (hrank : strength.rank < tighter.rank) :
    operatorOf tighter s = .ok none := by
  refine Grammar.operatorOf_eq_none hs (h.imp_right ?_)
  rintro ⟨token, rest, hreads, htoken⟩
  refine ⟨token, rest, hreads, fun op hop hstrength => ?_⟩
  have := htoken op hop
  rw [hstrength] at this
  omega

theorem NoTighter.mono {strength tighter : Strength} {s : Input} (h : NoTighter strength s)
    (hrank : strength.rank ≤ tighter.rank) : NoTighter tighter s := by
  refine h.imp_right ?_
  rintro ⟨token, rest, hreads, htoken⟩
  exact ⟨token, rest, hreads, fun op hop => Nat.le_trans (htoken op hop) hrank⟩

/-- Behind an expression the parser finds neither a logical operator nor a question mark. -/
theorem Over.settled {s : Input} (h : Over s) (hs : StartsSolid s) :
    junctionOperator s = none ∧ accept '?' s = none := by
  constructor
  · have hnone := @operatorOf_eq_none .junction s hs (h.imp_right ?_)
    · exact Except.ok.inj hnone
    · rintro ⟨token, rest, hreads, htoken⟩
      refine ⟨token, rest, hreads, ?_⟩
      rintro op rfl
      simp at htoken
  · rw [Option.eq_none_iff_forall_ne_some]
    intro r hr
    have hquestion : Reads .operator s .question r.1 := lone_question.reads hr
    rcases h with rfl | ⟨token, rest, hreads, htoken⟩
    · cases hr
    · obtain ⟨rfl, -⟩ := hreads.unique hs hquestion
      simp at htoken

/-- A question mark is not a logical operator, and the parser accepts it. -/
theorem question_of_reads {s rest : Input} (hs : StartsSolid s)
    (h : Reads .operator s .question rest) : junctionOperator s = none ∧
      ∃ after : Shorter s, accept '?' s = some after ∧ after.1 = rest := by
  have hother : ∀ op, Token.question = .operator op → op.strength ≠ .junction := by
    rintro op ⟨⟩
  have hnone := operatorOf_eq_none hs (Or.inr ⟨_, _, h, hother⟩)
  exact ⟨Except.ok.inj hnone, lone_question.accept hs h⟩

/-! ### Heights

The parts of a tree that is not too tall are not too tall. -/

theorem height_unary_le {op : UnaryOp} {operand : Expr String}
    (h : (Expr.unary op operand).height ≤ maxHeight) : operand.height ≤ maxHeight := by
  simp only [Expr.height] at h
  omega

theorem height_binary_le {op : BinaryOp} {left right : Expr String}
    (h : (Expr.binary op left right).height ≤ maxHeight) :
    left.height ≤ maxHeight ∧ right.height ≤ maxHeight := by
  simp only [Expr.height] at h
  omega

theorem height_conditional_le {condition thenBranch elseBranch : Expr String}
    (h : (Expr.conditional condition thenBranch elseBranch).height ≤ maxHeight) :
    condition.height ≤ maxHeight ∧ thenBranch.height ≤ maxHeight ∧
      elseBranch.height ≤ maxHeight := by
  simp only [Expr.height] at h
  omega

theorem height_le_tallest {args : List (Expr String)} {arg : Expr String} (h : arg ∈ args) :
    arg.height ≤ Expr.tallest args := by
  induction args with
  | nil => cases h
  | cons first args ih =>
      simp only [Expr.tallest]
      rcases List.mem_cons.mp h with rfl | h
      · exact Nat.le_max_left _ _
      · exact Nat.le_trans (ih h) (Nat.le_max_right _ _)

theorem height_args_le {f : Callable} {args : List (List Token × Expr String)}
    (h : (Expr.call f (args.map Prod.snd)).height ≤ maxHeight) :
    ∀ arg ∈ args, arg.2.height ≤ maxHeight := by
  intro arg harg
  have := height_le_tallest (List.mem_map_of_mem (f := Prod.snd) harg)
  simp only [Expr.height] at h
  omega

/-! ### The readers of the levels -/

section

variable (scope : Scope) (nested : Reader)

def operandReader : Strength → Reader
  | .junction => Parser.compare scope nested
  | .comparison => Parser.sum scope nested
  | .sum => Parser.product scope nested
  | .product => Parser.unary scope nested

def goOn {s : Input} : Strength → Parsed s → Except Failure (Parsed s)
  | .junction => logicalFrom scope nested
  | .comparison => chainFrom compareOperator (Parser.sum scope nested)
  | .sum => chainFrom sumOperator (Parser.product scope nested)
  | .product => chainFrom productOperator (Parser.unary scope nested)

def chainReader (strength : Strength) : Reader := fun s => do
  let left ← operandReader scope nested strength s
  goOn scope nested strength left

/-- What the reader of a level makes of a text that starts with the lexemes of a tree and goes on
with `rest`. A chain may go on there with more operators of its strength. -/
def Found (s : Input) (tree : Expr String) (rest : Input) : Level → Prop
  | .logical => Over rest → Finds (logical scope nested) s tree rest
  | .chain strength => NoTighter strength rest → ∃ left : Parsed s,
      chainReader scope nested strength s = goOn scope nested strength left ∧
        left.tree = tree ∧ left.rest = rest
  | .unary => Finds (Parser.unary scope nested) s tree rest
  | .primary => Finds (primary scope nested) s tree rest ∧ s.head? ≠ some '!'
  | .operand => FindsOperand scope nested s (.compound tree) rest ∧ s.head? ≠ some '!' ∧
      s.head? ≠ some '-'

variable {scope nested} {s rest : Input} {tree : Expr String}

/-- One round of a chain: an operator, an operand, and then the rest of the chain. -/
theorem goOn_round {strength : Strength} {left : Parsed s} {op : BinaryOp}
    {after : Shorter left.rest} {right : Parsed after.1}
    (hop : operatorOf strength left.rest = .ok (some (op, after)))
    (hright : operandReader scope nested strength after.1 = .ok right)
    (hheight : (Expr.binary op left.tree right.tree).height ≤ maxHeight) :
    ∃ next : Parsed s, next.tree = .binary op left.tree right.tree ∧ next.rest = right.rest ∧
      goOn scope nested strength left = goOn scope nested strength next := by
  cases strength with
  | junction => exact logicalFrom_round (Except.ok.inj hop) hright hheight
  | comparison | sum | product => exact chainFrom_round hop hright hheight

/-- Where no tighter operator follows, an operand is read to its end. -/
theorem Found.operand {strength : Strength}
    (h : Found scope nested s tree rest (.operandOf strength))
    (hrest : StartsSolid rest) (hend : NoTighter strength rest) :
    Finds (operandReader scope nested strength) s tree rest := by
  -- All but the tightest operands are chains themselves, which end here.
  have hchain : ∀ {operator : (s : Input) → Except Failure (Operator s)} {operand : Reader}
      {left : Parsed s}, left.tree = tree → left.rest = rest → operator rest = .ok none →
      Parser.chain operator operand s = chainFrom operator operand left →
      Finds (Parser.chain operator operand) s tree rest := by
    intro operator operand left htree hleft hstop hread
    rw [chainFrom_stop (hleft ▸ hstop)] at hread
    exact ⟨left, hread, htree, hleft⟩
  cases strength with
  | junction =>
      have hstop : operatorOf .comparison rest = .ok none :=
        hend.operatorOf_eq_none hrest (by decide)
      obtain ⟨left, hread, htree, hleft⟩ := h (hend.mono (by decide))
      exact hchain htree hleft hstop hread
  | comparison =>
      have hstop : operatorOf .sum rest = .ok none :=
        hend.operatorOf_eq_none hrest (by decide)
      obtain ⟨left, hread, htree, hleft⟩ := h (hend.mono (by decide))
      exact hchain htree hleft hstop hread
  | sum =>
      have hstop : operatorOf .product rest = .ok none :=
        hend.operatorOf_eq_none hrest (by decide)
      obtain ⟨left, hread, htree, hleft⟩ := h (hend.mono (by decide))
      exact hchain htree hleft hstop hread
  | product => exact h

end

/-! ### Rules of the grammar -/

/-- At every level, the parser reads the tree off a text that starts with the row of lexemes. -/
def Complete (scope : Scope) (depth : Nat) (level : Level) (row : List Token)
    (tree : Expr String) : Prop :=
  ∀ (levels : Nat) (s rest : Input), depth + levels = maxNesting → StartsSolid s →
    Lexes .operand s row .operator rest → tree.height ≤ maxHeight →
    Found scope (expression scope levels) s tree rest level

section

variable {scope : Scope} {depth : Nat}

/-- Lexemes that derive a tree end where an operator may stand. -/
theorem Derives.split {level : Level} {row more : List Token} {tree : Expr String}
    {position : Position} {s rest : Input} (h : Derives scope depth level row tree)
    (hlexes : Lexes .operand s (row ++ more) position rest) :
    ∃ t, Lexes .operand s row .operator t ∧ Lexes .operator t more position rest := by
  obtain ⟨middle, t, hrow, hmore⟩ := hlexes.split
  obtain ⟨-, last, hlast, hends⟩ := h.ends
  obtain rfl : middle = .operator :=
    (hrow.final_eq hlast).trans (Token.next_of_endsOperand hends)
  exact ⟨t, hrow, hmore⟩

theorem complete_single {strength : Strength} {row : List Token} {tree : Expr String}
    (h : Complete scope depth (.operandOf strength) row tree) :
    Complete scope depth (.chain strength) row tree := by
  intro levels s rest hlevels hs hrow hheight hend
  obtain ⟨left, hread, htree, hleft⟩ :=
    (h levels s rest hlevels hs hrow hheight).operand (hrow.startsSolid hs) hend
  refine ⟨left, ?_, htree, hleft⟩
  simp only [chainReader, hread]
  rfl

/-- A chain is read by going on behind its first part. The induction is on the derivation, which
grows to the right as the loop does. -/
theorem complete_chain {op : BinaryOp} {first second : List Token} {left right : Expr String}
    (hderives : Derives scope depth (.chain op.strength) first left)
    (hleft : Complete scope depth (.chain op.strength) first left)
    (hright : Complete scope depth (.operandOf op.strength) second right) :
    Complete scope depth (.chain op.strength) (first ++ .operator op :: second)
      (.binary op left right) := by
  intro levels s rest hlevels hs hrow hheight hend
  obtain ⟨hfits, hfits'⟩ := height_binary_le hheight
  obtain ⟨t, hfirst, hmore⟩ := hderives.split hrow
  cases hmore with
  | @cons _ _ _ u _ _ _ hop hsecond =>
      have ht : StartsSolid t := hfirst.startsSolid hs
      obtain ⟨p, hread, rfl, rfl⟩ := hleft levels s t hlevels hs hfirst hfits
        (noTighter_of_reads hop (by rintro op' ⟨rfl⟩; exact Nat.le_refl _))
      obtain ⟨after, hafter, rfl⟩ := operatorOf_of_reads ht hop
      obtain ⟨q, hq, rfl, rfl⟩ := (hright levels _ rest hlevels hop.startsSolid hsecond
        hfits').operand (hsecond.startsSolid hop.startsSolid) hend
      obtain ⟨next, htree, hrest, hround⟩ := goOn_round hafter hq hheight
      exact ⟨next, hread.trans hround, htree, hrest⟩

/-- An expression one nesting level further down is read by the reader that the expression around it
uses. -/
theorem Complete.nested {row : List Token} {tree : Expr String} (hdepth : depth < maxNesting)
    (h : Complete scope (depth + 1) .logical row tree) {levels : Nat} {s rest : Input}
    (hlevels : depth + levels = maxNesting) (hs : StartsSolid s)
    (hrow : Lexes .operand s row .operator rest) (hheight : tree.height ≤ maxHeight)
    (hover : Over rest) : Finds (expression scope levels) s tree rest := by
  cases levels with
  | zero => omega
  | succ levels => exact h levels s rest (by omega) hs hrow hheight hover

theorem complete_chains {row : List Token} {tree : Expr String}
    (h : Complete scope depth (.chain .junction) row tree) :
    Complete scope depth .logical row tree := by
  intro levels s rest hlevels hs hrow hheight hover
  obtain ⟨left, hread, htree, rfl⟩ :=
    h levels s rest hlevels hs hrow hheight (hover.noTighter _)
  obtain ⟨hop, hmark⟩ := hover.settled (hrow.startsSolid hs)
  exact ⟨left, hread.trans (logicalFrom_stop hop hmark), htree, rfl⟩

/-- A conditional is read behind its condition, one level further in for its else branch. -/
theorem complete_conditional {first second third : List Token}
    {condition thenBranch elseBranch : Expr String}
    (hfirst : Derives scope depth (.chain .junction) first condition)
    (hsecond : Derives scope depth (.chain .comparison) second thenBranch)
    (hdepth : depth < maxNesting)
    (hcondition : Complete scope depth (.chain .junction) first condition)
    (hthen : Complete scope depth (.chain .comparison) second thenBranch)
    (helse : Complete scope (depth + 1) .logical third elseBranch) :
    Complete scope depth .logical (first ++ .question :: (second ++ .colon :: third))
      (.conditional condition thenBranch elseBranch) := by
  intro levels s rest hlevels hs hrow hheight hover
  obtain ⟨hfits, hfits', hfits''⟩ := height_conditional_le hheight
  obtain ⟨t, hrow, hmore⟩ := hfirst.split hrow
  cases hmore with
  | cons hquestion hmore =>
      obtain ⟨u, hrow', hmore⟩ := hsecond.split hmore
      cases hmore with
      | cons hcolon hrow'' =>
          have ht : StartsSolid t := hrow.startsSolid hs
          have hu : StartsSolid u := hrow'.startsSolid hquestion.startsSolid
          obtain ⟨p, hread, rfl, rfl⟩ := hcondition levels s t hlevels hs hrow hfits
            (noTighter_of_reads hquestion (by rintro op ⟨⟩))
          obtain ⟨hop, after, hafter, rfl⟩ := question_of_reads ht hquestion
          have hfound : Found scope (expression scope levels) after.1 thenBranch u
              (.operandOf .junction) :=
            hthen levels _ u hlevels hquestion.startsSolid hrow' hfits'
          obtain ⟨q, hq, rfl, rfl⟩ :=
            hfound.operand hu (noTighter_of_reads hcolon (by rintro op ⟨⟩))
          obtain ⟨after', hafter', rfl⟩ := lone_colon.accept hu hcolon
          obtain ⟨r, hr, rfl, rfl⟩ := helse.nested hdepth hlevels hcolon.startsSolid hrow''
            hfits'' hover
          obtain ⟨next, htree, hrest, hround⟩ :=
            logicalFrom_conditional hop hafter hq hafter' hr hheight
          obtain ⟨hstop, hstop'⟩ := hover.settled (hrow''.startsSolid hcolon.startsSolid)
          rw [← hrest] at hstop hstop'
          exact ⟨next, hread.trans (hround.trans (logicalFrom_stop hstop hstop')), htree, hrest⟩

theorem complete_plain {row : List Token} {tree : Expr String}
    (h : Complete scope depth .primary row tree) : Complete scope depth .unary row tree := by
  intro levels s rest hlevels hs hrow hheight
  obtain ⟨⟨p, hp, htree, hrest⟩, hhead⟩ := h levels s rest hlevels hs hrow hheight
  refine ⟨p, ?_, htree, hrest⟩
  simp only [Parser.unary, accept_eq_none_iff.mpr hhead, hp]

theorem complete_not {row : List Token} {tree : Expr String}
    (h : Complete scope depth .primary row tree) :
    Complete scope depth .unary (.not :: row) (.unary .not tree) := by
  intro levels s rest hlevels hs hrow hheight
  cases hrow with
  | cons hnot hrow =>
      obtain ⟨after, hafter, rfl⟩ := lone_not.accept hs hnot
      obtain ⟨⟨p, hp, rfl, rfl⟩, -⟩ :=
        h levels _ rest hlevels hnot.startsSolid hrow (height_unary_le hheight)
      refine ⟨⟨_, p.lastName, p.rest, Nat.lt_trans p.shorter after.2⟩, ?_, rfl, rfl⟩
      simp only [Parser.unary, hafter, hp, bind, Except.bind, limited_eq_ok hheight]
      rfl

/-- An operand without a sign. -/
theorem primary_unsigned {nested : Reader} {s rest : Input} {operand : Unsigned}
    (h : FindsOperand scope nested s operand rest) (hnot : s.head? ≠ some '!')
    (hminus : s.head? ≠ some '-') :
    Found scope nested s (operand.tree scope.now false) rest .primary := by
  obtain ⟨o, ho, rfl, rfl⟩ := h
  refine ⟨⟨⟨_, o.lastName, o.rest, o.shorter⟩, ?_, rfl, rfl⟩, hnot⟩
  simp only [primary, accept_eq_none_iff.mpr hminus, ho, bind, Except.bind]
  rfl

/-- An operand behind a minus sign. -/
theorem primary_negative {nested : Reader} {s t rest : Input} {operand : Unsigned}
    (hs : StartsSolid s) (hminus : Reads .operand s (.operator .sub) t)
    (h : FindsOperand scope nested t operand rest)
    (hheight : (operand.tree scope.now true).height ≤ maxHeight) :
    Found scope nested s (operand.tree scope.now true) rest .primary := by
  obtain ⟨after, hafter, rfl⟩ := (lone_minus _).accept hs hminus
  obtain ⟨o, ho, rfl, rfl⟩ := h
  refine ⟨⟨⟨_, o.lastName, o.rest, Nat.lt_trans o.shorter after.2⟩, ?_, rfl, rfl⟩, ?_⟩
  · simp only [primary, hafter, ho, bind, Except.bind, limited_eq_ok hheight]
    rfl
  · obtain ⟨more, rfl, -⟩ := accept_eq_some hafter
    simp

/-- A number or string, which the parser does not give a tree of its own. -/
theorem complete_value {token : Token} {operand : Unsigned} (hkind : token.kind ≠ .mark)
    (h : ∀ {nested s rest}, StartsSolid s → Reads .operand s token rest →
      FindsOperand scope nested s operand rest) :
    Complete scope depth .primary [token] (operand.tree scope.now false) ∧
      Complete scope depth .primary [.operator .sub, token] (operand.tree scope.now true) := by
  constructor
  · intro levels s rest hlevels hs hrow _
    have htoken : Reads .operand s token rest := hrow.reads
    exact primary_unsigned (h hs htoken) (htoken.head_ne hs fun hc => hkind hc.symm)
      (htoken.head_ne hs fun hc => hkind hc.symm)
  · intro levels s rest hlevels hs hrow hheight
    cases hrow with
    | cons hminus hmore =>
        exact primary_negative hs hminus (h hminus.startsSolid hmore.reads) hheight

theorem complete_unsigned {row : List Token} {tree : Expr String}
    (h : Complete scope depth .operand row tree) : Complete scope depth .primary row tree := by
  intro levels s rest hlevels hs hrow hheight
  obtain ⟨hfinds, hnot, hminus⟩ := h levels s rest hlevels hs hrow hheight
  exact primary_unsigned hfinds hnot hminus

/-- The minus sign of an operand subtracts it from zero. -/
theorem complete_negative {row : List Token} {tree : Expr String}
    (h : Complete scope depth .operand row tree) :
    Complete scope depth .primary (.operator .sub :: row)
      (.binary .sub (.constant (.number scope.now 0.0)) tree) := by
  intro levels s rest hlevels hs hrow hheight
  cases hrow with
  | cons hminus hrow =>
      obtain ⟨hfinds, -⟩ :=
        h levels _ rest hlevels hminus.startsSolid hrow (height_binary_le hheight).2
      exact primary_negative hs hminus hfinds hheight

/-- A name that is known is a variable, whether quoted or not. -/
theorem complete_variable {token : Token} {name : String} (hkind : token.kind ≠ .mark)
    (hname : token.variableName? = some name) (hknown : scope.knows name = true) :
    Complete scope depth .operand [token] (.var name) := by
  intro levels s rest hlevels hs hrow _
  have htoken : Reads .operand s token rest := hrow.reads
  exact ⟨finds_variable hs htoken hname hknown, htoken.head_ne hs fun hc => hkind hc.symm,
    htoken.head_ne hs fun hc => hkind hc.symm⟩

theorem closeParenthesis_of_reads {s rest : Input} (hs : StartsSolid s)
    (h : Reads .operator s .closing rest) :
    ∃ r : Shorter s, closeParenthesis s = .ok r ∧ r.1 = rest := by
  obtain ⟨r, hr, hrest⟩ := (lone_closing _).accept hs h
  exact ⟨r, by simp only [closeParenthesis, hr], hrest⟩

theorem over_of_closing {s rest : Input} (h : Reads .operator s .closing rest) : Over s :=
  Or.inr ⟨_, _, h, Or.inl rfl⟩

/-- Inside of parentheses there is one level less to open. -/
theorem complete_parenthesised {row : List Token} {tree : Expr String} (hdepth : depth < maxNesting)
    (hderives : Derives scope (depth + 1) .logical row tree)
    (h : Complete scope (depth + 1) .logical row tree) :
    Complete scope depth .operand (.opening :: (row ++ [.closing])) tree := by
  intro levels s rest hlevels hs hrow hheight
  cases hrow with
  | cons hopening hmore =>
      obtain ⟨t, hrow, hmore⟩ := hderives.split hmore
      have hclosing : Reads .operator t .closing rest := hmore.reads
      obtain ⟨after, hafter, rfl⟩ := (lone_opening _).accept hs hopening
      obtain ⟨p, hp, rfl, rfl⟩ := h.nested hdepth hlevels hopening.startsSolid hrow hheight
        (over_of_closing hclosing)
      obtain ⟨after', hafter', rfl⟩ :=
        closeParenthesis_of_reads (hrow.startsSolid hopening.startsSolid) hclosing
      obtain ⟨more, rfl, -⟩ := accept_eq_some hafter
      refine ⟨⟨⟨_, p.lastName, after'.1, Nat.lt_trans after'.2 (Nat.lt_trans p.shorter after.2)⟩,
        ?_, rfl, rfl⟩, by simp, by simp⟩
      have hnumber : ¬ startsNumber '(' = true := by decide
      simp only [unsigned, Char.reduceEq, or_self, if_false, hnumber, hafter, parenthesised,
        hp, hafter', bind, Except.bind]
      rfl

theorem accept_closing_eq_none {row more : List Token} {tree : Expr String} {final : Position}
    {s rest : Input} (h : Derives scope depth .logical row tree) (hs : StartsSolid s)
    (hrow : Lexes .operand s (row ++ more) final rest) : accept ')' s = none := by
  obtain ⟨⟨first, hfirst, hclosing⟩, -⟩ := h.ends
  obtain ⟨others, rfl⟩ := List.head?_eq_some_iff.mp hfirst
  rw [Option.eq_none_iff_forall_ne_some]
  intro r hr
  have hreads : Reads .operand s .closing r.1 := (lone_closing _).reads hr
  cases hrow with
  | cons htoken _ => exact hclosing (htoken.unique hs hreads).1

/-- The arguments of a call are read up to its closing parenthesis. -/
theorem finds_arguments {args : List (List Token × Expr String)} (hne : args ≠ [])
    (hdepth : depth < maxNesting)
    (hderives : ∀ arg ∈ args, Derives scope (depth + 1) .logical arg.1 arg.2)
    (h : ∀ arg ∈ args, Complete scope (depth + 1) .logical arg.1 arg.2) {levels : Nat}
    {s rest : Input} (hlevels : depth + levels = maxNesting) (hs : StartsSolid s)
    (hrow : Lexes .operand s (separated (args.map Prod.fst) ++ [.closing]) .operator rest)
    (hheight : ∀ arg ∈ args, arg.2.height ≤ maxHeight) :
    accept ')' s = none ∧ ∃ a : Arguments s, arguments (expression scope levels) s = .ok a ∧
      a.trees = args.map Prod.snd ∧ StartsSolid a.rest ∧ Reads .operator a.rest .closing rest := by
  induction args generalizing s with
  | nil => exact absurd rfl hne
  | cons arg args ih =>
      obtain ⟨hrule, hrules⟩ := List.forall_mem_cons.mp hderives
      obtain ⟨harg, hargs⟩ := List.forall_mem_cons.mp h
      obtain ⟨hfits, hfits'⟩ := List.forall_mem_cons.mp hheight
      by_cases hlast : args = []
      · subst hlast
        rw [List.map_singleton, separated_one] at hrow
        refine ⟨accept_closing_eq_none hrule hs hrow, ?_⟩
        obtain ⟨t, hrow, hmore⟩ := hrule.split hrow
        have hclosing : Reads .operator t .closing rest := hmore.reads
        obtain ⟨p, hp, htree, rfl⟩ :=
          harg.nested hdepth hlevels hs hrow hfits (over_of_closing hclosing)
        have hcomma : accept ',' p.rest = none := by
          obtain ⟨r, hr, -⟩ := (lone_closing _).accept (hrow.startsSolid hs) hclosing
          obtain ⟨more, hmore, -⟩ := accept_eq_some hr
          rw [accept_eq_none_iff, hmore]
          simp
        obtain ⟨a, ha, htrees, hrest⟩ := arguments_last hp hcomma
        exact ⟨a, ha, by simp [htrees, htree], hrest ▸ hrow.startsSolid hs, hrest ▸ hclosing⟩
      · rw [List.map_cons, separated_cons _ (by simpa using hlast), List.append_assoc] at hrow
        refine ⟨accept_closing_eq_none hrule hs hrow, ?_⟩
        obtain ⟨t, hrow, hmore⟩ := hrule.split hrow
        cases hmore with
        | cons hcomma hmore =>
            obtain ⟨p, hp, htree, rfl⟩ := harg.nested hdepth hlevels hs hrow hfits
              (Or.inr ⟨_, _, hcomma, Or.inr rfl⟩)
            obtain ⟨after, hafter, rfl⟩ := lone_comma.accept (hrow.startsSolid hs) hcomma
            obtain ⟨-, more, hread, htrees, hsolid, hclosing⟩ :=
              ih hlast hrules hargs hcomma.startsSolid hmore hfits'
            obtain ⟨a, ha, htrees', hrest⟩ := arguments_more hp hafter hread
            refine ⟨a, ha, ?_, hrest ▸ hsolid, hrest ▸ hclosing⟩
            rw [htrees', htree, htrees, List.map_cons]

/-- The arguments of a call are read one behind the other, and then the function is looked up. -/
theorem complete_call {name : String} {f : Callable} {args : List (List Token × Expr String)}
    (hresolve : scope.resolve name = some f) (harity : f.arity.accepts args.length = true)
    (hdepth : args ≠ [] → depth < maxNesting)
    (hderives : ∀ arg ∈ args, Derives scope (depth + 1) .logical arg.1 arg.2)
    (h : ∀ arg ∈ args, Complete scope (depth + 1) .logical arg.1 arg.2) :
    Complete scope depth .operand
      (.function name :: .opening :: (separated (args.map Prod.fst) ++ [.closing]))
      (.call f (args.map Prod.snd)) := by
  intro levels s rest hlevels hs hrow hheight
  have hcall : ∀ start unread, call scope name start (args.map Prod.snd) unread =
      .ok (.call f (args.map Prod.snd)) := fun start unread =>
    call_eq_ok_iff.mpr ⟨f, hresolve, by rwa [List.length_map], hheight, rfl⟩
  cases hrow with
  | cons hfunction hmore =>
  cases hmore with
  | cons hopening hmore =>
      refine ⟨?_, hfunction.head_ne hs (by rintro ⟨⟩), hfunction.head_ne hs (by rintro ⟨⟩)⟩
      unfold FindsOperand
      rw [unsigned_eq_named hs hfunction rfl]
      obtain ⟨hname, inner, rfl, rfl, hinner⟩ := function_eq hfunction hopening
      have hu : StartsSolid inner.1 := hopening.startsSolid
      have hshorter := Nat.lt_trans inner.2 (length_bareName_lt s hname)
      by_cases hnone : args = []
      · subst hnone
        have hclosing : Reads .operand inner.1 .closing rest := hmore.reads
        obtain ⟨after, hafter, rfl⟩ := (lone_closing _).accept hu hclosing
        refine ⟨⟨_, some (String.ofList (bareName s).1, s), after.1,
          Nat.lt_trans after.2 hshorter⟩, ?_, rfl, rfl⟩
        simp only [List.map_nil] at hcall
        simp only [named, dif_neg hname, hinner, hafter, hcall, bind, Except.bind]
        rfl
      · obtain ⟨hclose, a, ha, htrees, hsolid, hclosing⟩ :=
          finds_arguments hnone (hdepth hnone) hderives h hlevels hu hmore
            (height_args_le hheight)
        obtain ⟨after, hafter, rfl⟩ := closeParenthesis_of_reads hsolid hclosing
        refine ⟨⟨_, a.lastName.or (some (String.ofList (bareName s).1, s)), after.1,
          Nat.lt_trans after.2 (Nat.lt_trans a.shorter hshorter)⟩, ?_, rfl, rfl⟩
        simp only [named, dif_neg hname, hinner, hclose, ha, hafter, htrees, hcall, bind,
          Except.bind]
        rfl

end

/-- The parser reads whatever the grammar derives. -/
theorem Derives.complete {scope : Scope} {depth : Nat} {level : Level} {row : List Token}
    {tree : Expr String} (h : Derives scope depth level row tree) :
    Complete scope depth level row tree := by
  induction h with
  | chains _ ih => exact complete_chains ih
  | conditional hcondition hthen hdepth _ ihcondition ihthen ihelse =>
      exact complete_conditional hcondition hthen hdepth ihcondition ihthen ihelse
  | single _ ih => exact complete_single ih
  | chain hleft _ ihleft ihright => exact complete_chain hleft ihleft ihright
  | not _ ih => exact complete_not ih
  | plain _ ih => exact complete_plain ih
  | number x => exact (complete_value (by simp [Token.kind]) finds_number).1
  | negativeNumber x => exact (complete_value (by simp [Token.kind]) finds_number).2
  | text s => exact (complete_value (by simp [Token.kind]) fun _ => finds_text).1
  | negativeText s => exact (complete_value (by simp [Token.kind]) fun _ => finds_text).2
  | unsigned _ ih => exact complete_unsigned ih
  | negative _ ih => exact complete_negative ih
  | quoted hknown | bare hknown => exact complete_variable (by simp [Token.kind]) rfl hknown
  | parenthesised hdepth h ih => exact complete_parenthesised hdepth h ih
  | call hresolve harity hdepth hargs ih => exact complete_call hresolve harity hdepth hargs ih

/-- The parser reads the tree of a text. -/
theorem parse_of_sentence {scope : Scope} {text : String} {tree : Expr String}
    (h : Sentence scope text tree) : parse scope text = .ok tree := by
  obtain ⟨tokens, hlexes, hderives, hheight⟩ := h
  obtain ⟨p, hp, rfl, hrest⟩ := hderives.complete maxNesting _ [] (Nat.zero_add _)
    (startsSolid_skipBlanks _) hlexes hheight (Or.inl rfl)
  have hread : expression scope (maxNesting + 1) (Text.skipBlanks text.toList) = .ok p := hp
  simp only [parse, formula, hread, bind, Except.bind, hrest, List.isEmpty_nil, if_true]
  rfl

end Grammar

end ProcessFormula
