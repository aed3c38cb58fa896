import ProcessFormula.Proofs.Grammar.Marks

/-!
Whatever the parser reads is derived by the grammar: each reader takes a row of lexemes off the text
that has the tree it returns, and that tree is not too tall.
-/

namespace ProcessFormula.Grammar

open Text Lexeme ProcessFormula.Parser

/-- What a reader reads off a text is a row of lexemes that derives its tree. -/
def Sound (reader : Reader) (derives : List Token → Expr String → Prop) : Prop :=
  ∀ (s : Input) (p : Parsed s), StartsSolid s → reader s = .ok p →
    ∃ row, Lexes .operand s row .operator p.rest ∧ derives row p.tree ∧
      p.tree.height ≤ maxHeight

variable {scope : Scope} {depth : Nat}

/-- What the loop reads is a chain, by induction on the rounds. -/
theorem sound_chain {strength : Strength} {operand : Reader}
    (hoperand : Sound operand (Derives scope depth (.operandOf strength))) :
    Sound (Parser.chain (operatorOf strength) operand)
      (Derives scope depth (.chain strength)) := by
  intro s p hs hp
  obtain ⟨left, hleft, hp⟩ := bind_eq_ok.mp hp
  obtain ⟨row, hrow, hderives, hheight⟩ := hoperand s left hs hleft
  -- Every round adds an operator and its right operand to the row read so far.
  refine (chainFrom_invariant (fun p => ∃ row, Lexes .operand s row .operator p.rest ∧
    Derives scope depth (.chain strength) row p.tree ∧ p.tree.height ≤ maxHeight) ?_ hp
    ⟨row, hrow, .single hderives, hheight⟩).1
  intro left op rest right next hinv hop hright hheight htree hrest _
  obtain ⟨row, hrow, hderives, -⟩ := hinv
  obtain ⟨hreads, rfl⟩ := reads_of_operatorOf hop
  obtain ⟨row', hrow', hderives', -⟩ := hoperand rest.1 right hreads.startsSolid hright
  rw [hrest, htree]
  exact ⟨row ++ .operator op :: row', hrow.append (.cons hreads hrow'), .chain hderives hderives',
    hheight⟩

/-! ### Operands -/

/-- What a row of lexemes without a sign says about the operand read from it. -/
def DerivesUnsigned (scope : Scope) (depth : Nat) (row : List Token) : Unsigned → Prop
  | .number x => row = [.number x]
  | .string s => row = [.text s]
  | .compound tree => Derives scope depth .operand row tree ∧ tree.height ≤ maxHeight

/-- The operand is read off a row of lexemes from the start of the text. -/
def SoundOperand (scope : Scope) (depth : Nat) {s : Input} (o : Operand s) : Prop :=
  ∃ row, Lexes .operand s row .operator o.rest ∧ DerivesUnsigned scope depth row o.operand

/-- A tree of one nesting level further down. -/
def DerivesNested (scope : Scope) (depth : Nat) (row : List Token) (tree : Expr String) : Prop :=
  depth < maxNesting ∧ Derives scope (depth + 1) .logical row tree

theorem height_var_le (name : String) : (Expr.var name).height ≤ maxHeight := by
  simp [Expr.height, maxHeight]

theorem height_constant_le (value : Value) :
    (Expr.constant value : Expr String).height ≤ maxHeight := by
  simp [Expr.height, maxHeight]

/-- A number that is read is one lexeme. -/
theorem reads_of_number {c : Char} {s : Input} (hc : startsNumber c = true) {o : Operand (c :: s)}
    (ho : number c s hc = .ok o) :
    ∃ x, Reads .operand (c :: s) (.number x) o.rest ∧ o.operand = .number x ∧ o.lastName = none := by
  simp only [number] at ho
  split at ho
  · next d hd =>
    obtain rfl := Except.ok.inj ho
    have hrun : Longest (Runs numberGoesOn) (numberRun false (c :: s)).1 (c :: s)
        (numberRun false (c :: s)).2 := numberRun_eq_iff.mp rfl
    have hs : StartsSolid (c :: s) := by
      rw [startsSolid_cons]
      exact isBlank_of_startsNumber hc
    refine ⟨d.toFloat false, .number hrun ?_ (literal_of_literal? hd), rfl, rfl⟩
    intro c' hc'
    obtain ⟨chars, hchars⟩ := List.head?_eq_some_iff.mp hc'
    rw [hchars] at hrun
    obtain ⟨more, hmore, -⟩ := hrun.eq_cons hs
    rw [← (List.cons.inj hmore).1]
    exact hc
  · cases ho

/-- A string that is read is one lexeme. -/
theorem reads_of_string {s : Input} {o : Operand ('\x22' :: s)} (ho : string '\x22' s = .ok o) :
    ∃ text, Reads .operand ('\x22' :: s) (.text text) o.rest ∧ o.operand = .string text ∧
      o.lastName = none := by
  unfold string at ho
  split at ho
  · next r hr =>
    obtain rfl := Except.ok.inj ho
    obtain ⟨body, blanks, rfl, hbody, hblanks, hrest, hcontent⟩ :=
      stringBody_eq_some_iff.mp (show stringBody false s = some (r.1, r.2) from hr)
    refine ⟨String.ofList r.1, ?_, rfl, rfl⟩
    rw [hcontent]
    exact .text hbody hblanks hrest
  · cases ho

/-- A quoted name that is read is one lexeme. -/
theorem reads_of_quotedName {c : Char} {s : Input} (hc : c = '\x27' ∨ c = '\x60')
    {o : Operand (c :: s)} (ho : quotedName scope c s = .ok o) :
    ∃ name, Reads .operand (c :: s) (.quoted name) o.rest ∧ scope.knows name = true ∧
      o.operand = .compound (.var name) ∧ o.lastName = none := by
  unfold quotedName at ho
  split at ho
  · next r hr =>
    obtain ⟨tree, htree, ho⟩ := bind_eq_ok.mp ho
    obtain ⟨hknown, rfl⟩ := variableNamed_eq_ok_iff.mp htree
    obtain rfl := Except.ok.inj ho
    obtain ⟨blanks, rfl, hname, hblanks, hrest⟩ :=
      upTo_eq_some_iff.mp (show upTo c s = some (r.1, r.2) from hr)
    exact ⟨String.ofList r.1, .quoted hc hname hblanks hrest, hknown, rfl, rfl⟩
  · cases ho

theorem sound_number {c : Char} {s : Input} (hc : startsNumber c = true) {o : Operand (c :: s)}
    (ho : number c s hc = .ok o) : SoundOperand scope depth o := by
  obtain ⟨x, hreads, hoperand, -⟩ := reads_of_number hc ho
  exact ⟨[.number x], .one hreads, by rw [hoperand]; rfl⟩

theorem sound_string {s : Input} {o : Operand ('\x22' :: s)} (ho : string '\x22' s = .ok o) :
    SoundOperand scope depth o := by
  obtain ⟨text, hreads, hoperand, -⟩ := reads_of_string ho
  exact ⟨[.text text], .one hreads, by rw [hoperand]; rfl⟩

theorem sound_quotedName {c : Char} {s : Input} (hc : c = '\x27' ∨ c = '\x60')
    {o : Operand (c :: s)} (ho : quotedName scope c s = .ok o) : SoundOperand scope depth o := by
  obtain ⟨name, hreads, hknown, hoperand, -⟩ := reads_of_quotedName hc ho
  exact ⟨[.quoted name], .one hreads, by rw [hoperand]; exact ⟨.quoted hknown, height_var_le _⟩⟩

theorem sound_closeParenthesis {s : Input} {rest : Shorter s}
    (h : closeParenthesis s = .ok rest) : Reads .operator s .closing rest.1 := by
  unfold closeParenthesis at h
  split at h
  · next rest' hrest' =>
    obtain rfl := Except.ok.inj h
    exact (lone_closing _).reads hrest'
  · cases h

/-- What an unquoted name at the start of a text is read as: a variable, or the name of a function
with an empty list of arguments or with some arguments behind it. -/
inductive ReadsNamed (scope : Scope) (nested : Reader) {s : Input} (o : Operand s) : Prop
  | bare {name : String} (hname : Reads .operand s (.bare name) o.rest)
      (hknown : scope.knows name = true) (hoperand : o.operand = .compound (.var name))
      (hlast : o.lastName = some (name, s)) : ReadsNamed scope nested o
  | emptyCall {name : String} {f : Callable} {opened inner : Input}
      (hname : Reads .operand s (.function name) opened)
      (hopen : Reads .operator opened .opening inner) (hclose : Reads .operand inner .closing o.rest)
      (hresolve : scope.resolve name = some f) (harity : f.arity.accepts 0 = true)
      (hheight : (Expr.call f [] : Expr String).height ≤ maxHeight)
      (hoperand : o.operand = .compound (.call f [])) (hlast : o.lastName = some (name, s)) :
      ReadsNamed scope nested o
  | call {name : String} {f : Callable} {opened inner : Input} {args : Arguments inner}
      (hname : Reads .operand s (.function name) opened)
      (hopen : Reads .operator opened .opening inner) (hargs : arguments nested inner = .ok args)
      (hclose : Reads .operator args.rest .closing o.rest) (hresolve : scope.resolve name = some f)
      (harity : f.arity.accepts args.trees.length = true)
      (hheight : (Expr.call f args.trees).height ≤ maxHeight)
      (hoperand : o.operand = .compound (.call f args.trees))
      (hlast : o.lastName = args.lastName.or (some (name, s))) : ReadsNamed scope nested o

/-- An unquoted name is read in one of three ways. -/
theorem readsNamed_of_named {nested : Reader} {s : Input} (hs : StartsSolid s)
    (hhead : ∀ c ∈ s.head?, startsNumber c = false) {o : Operand s}
    (ho : named scope nested s = .ok o) : ReadsNamed scope nested o := by
  simp only [named] at ho
  split at ho
  · cases ho
  · next hne =>
    have hrun : Longest (Runs nameGoesOn) (bareName s).1 s (bareName s).2 :=
      bareName_eq_iff.mp rfl
    have hstart := head_bareName hs hhead hne
    split at ho
    · next hparen =>
      obtain ⟨tree, htree, ho⟩ := bind_eq_ok.mp ho
      obtain ⟨hknown, rfl⟩ := variableNamed_eq_ok_iff.mp htree
      obtain rfl := Except.ok.inj ho
      exact .bare (.bare hrun hstart (accept_eq_none_iff.mp hparen)) hknown rfl rfl
    · next inner hparen =>
      have hfunction : Reads .operand s (.function (String.ofList (bareName s).1))
          (bareName s).2 := by
        obtain ⟨more, hmore, -⟩ := accept_eq_some hparen
        exact .function hrun hstart (by rw [hmore]; rfl)
      have hopen : Reads .operator (bareName s).2 .opening inner.1 := (lone_opening _).reads hparen
      split at ho
      · next rest hclose =>
        obtain ⟨tree, htree, ho⟩ := bind_eq_ok.mp ho
        obtain ⟨f, hresolve, harity, hheight, rfl⟩ := call_eq_ok_iff.mp htree
        obtain rfl := Except.ok.inj ho
        exact .emptyCall hfunction hopen ((lone_closing _).reads hclose) hresolve harity hheight rfl
          rfl
      · obtain ⟨args, hargs, ho⟩ := bind_eq_ok.mp ho
        obtain ⟨rest, hrest, ho⟩ := bind_eq_ok.mp ho
        obtain ⟨tree, htree, ho⟩ := bind_eq_ok.mp ho
        obtain ⟨f, hresolve, harity, hheight, rfl⟩ := call_eq_ok_iff.mp htree
        obtain rfl := Except.ok.inj ho
        exact .call hfunction hopen hargs (sound_closeParenthesis hrest) hresolve harity hheight rfl
          rfl

section

variable {nested : Reader} (hnested : Sound nested (DerivesNested scope depth))
include hnested

theorem sound_parenthesised {s : Input} {inner : Shorter s} (hinner : accept '(' s = some inner)
    {o : Operand s} (ho : parenthesised nested s inner = .ok o) : SoundOperand scope depth o := by
  obtain ⟨p, hp, ho⟩ := bind_eq_ok.mp ho
  obtain ⟨rest, hrest, ho⟩ := bind_eq_ok.mp ho
  obtain rfl := Except.ok.inj ho
  have hopen : Reads .operand s .opening inner.1 := (lone_opening _).reads hinner
  obtain ⟨row, hrow, ⟨hdepth, hderives⟩, hheight⟩ := hnested inner.1 p hopen.startsSolid hp
  exact ⟨.opening :: (row ++ [.closing]),
    .cons hopen (hrow.append (.one (sound_closeParenthesis hrest))),
    .parenthesised hdepth hderives, hheight⟩

/-- The arguments of a call are read off rows of lexemes with commas between them. -/
theorem sound_arguments {s : Input} (hs : StartsSolid s) {a : Arguments s}
    (ha : arguments nested s = .ok a) :
    ∃ args : List (List Token × Expr String), args ≠ [] ∧
      Lexes .operand s (separated (args.map Prod.fst)) .operator a.rest ∧
      a.trees = args.map Prod.snd ∧ ∀ arg ∈ args, DerivesNested scope depth arg.1 arg.2 := by
  revert hs
  refine arguments_induction (fun s a => StartsSolid s →
    ∃ args : List (List Token × Expr String), args ≠ [] ∧
      Lexes .operand s (separated (args.map Prod.fst)) .operator a.rest ∧
      a.trees = args.map Prod.snd ∧
      ∀ arg ∈ args, DerivesNested scope depth arg.1 arg.2) ?_ ?_ ha
  · intro s first a hfirst _ htrees hrest _ hs
    obtain ⟨row, hrow, hderives, -⟩ := hnested s first hs hfirst
    refine ⟨[(row, first.tree)], by simp, ?_, by simp [htrees], by simpa using hderives⟩
    simpa [hrest, separated_one] using hrow
  · intro s first rest more a hfirst hcomma hmore htrees hrest _ hs
    obtain ⟨row, hrow, hderives, -⟩ := hnested s first hs hfirst
    have hreads : Reads .operator first.rest .comma rest.1 := lone_comma.reads hcomma
    obtain ⟨args, hne, hrows, htrees', hall⟩ := hmore hreads.startsSolid
    refine ⟨(row, first.tree) :: args, by simp, ?_, by simp [htrees, htrees'], ?_⟩
    · rw [hrest, List.map_cons, separated_cons _ (by simpa using hne)]
      exact hrow.append (.cons hreads hrows)
    · intro arg harg
      rcases List.mem_cons.mp harg with rfl | harg
      · exact hderives
      · exact hall arg harg

/-- A function is called with arguments that were read one level further in. -/
theorem sound_named {s : Input} (hs : StartsSolid s)
    (hhead : ∀ c ∈ s.head?, startsNumber c = false) {o : Operand s}
    (ho : named scope nested s = .ok o) : SoundOperand scope depth o := by
  cases readsNamed_of_named hs hhead ho with
  | bare hname hknown hoperand _ =>
      exact ⟨_, .one hname, by rw [hoperand]; exact ⟨.bare hknown, height_var_le _⟩⟩
  | emptyCall hname hopen hclose hresolve harity hheight hoperand _ =>
      have hcall := @Derives.call scope depth _ _ [] hresolve harity (by simp) (by simp)
      exact ⟨_, .cons hname (.cons hopen (.one hclose)), by rw [hoperand]; exact ⟨hcall, hheight⟩⟩
  | call hname hopen hargs hclose hresolve harity hheight hoperand _ =>
      obtain ⟨rows, hne, hrows, htrees, hall⟩ := sound_arguments hnested hopen.startsSolid hargs
      rw [htrees] at harity hheight hoperand
      obtain ⟨arg, harg⟩ := List.exists_mem_of_ne_nil rows hne
      have hcall : Derives scope depth .operand _ _ :=
        .call hresolve (by simpa using harity) (fun _ => (hall arg harg).1)
          fun arg harg => (hall arg harg).2
      exact ⟨_, .cons hname (.cons hopen (hrows.append (.one hclose))), by
        rw [hoperand]; exact ⟨hcall, hheight⟩⟩

/-- Every operand is read off lexemes, whichever kind it is. -/
theorem sound_unsigned {s : Input} (hs : StartsSolid s) {o : Operand s}
    (ho : unsigned scope nested s = .ok o) : SoundOperand scope depth o := by
  unfold unsigned at ho
  split at ho
  · cases ho
  · next c rest =>
    split at ho
    · next hquote => exact sound_quotedName hquote ho
    · split at ho
      · next htext =>
        subst htext
        exact sound_string ho
      · split at ho
        · next hnumber => exact sound_number hnumber ho
        · next hnumber =>
          split at ho
          · next inner hinner => exact sound_parenthesised hnested hinner ho
          · exact sound_named hnested hs (by simpa using hnumber) ho

theorem sound_primary : Sound (primary scope nested) (Derives scope depth .primary) := by
  intro s p hs hp
  unfold primary at hp
  split at hp
  · obtain ⟨⟨operand, _, rest, _⟩, ho, hp⟩ := bind_eq_ok.mp hp
    obtain rfl := Except.ok.inj hp
    obtain ⟨row, hrow, hderives⟩ := sound_unsigned hnested hs ho
    refine ⟨row, hrow, ?_⟩
    cases operand with
    | number x =>
        obtain rfl := hderives
        exact ⟨.number x, height_constant_le _⟩
    | string text =>
        obtain rfl := hderives
        exact ⟨.text text, height_constant_le _⟩
    | compound tree => exact ⟨.unsigned hderives.1, hderives.2⟩
  · next inner hminus =>
    have hreads : Reads .operand s (.operator .sub) inner.1 := (lone_minus _).reads hminus
    obtain ⟨⟨operand, _, rest, _⟩, ho, hp⟩ := bind_eq_ok.mp hp
    obtain ⟨tree, htree, hp⟩ := bind_eq_ok.mp hp
    obtain ⟨hheight, rfl⟩ := limited_eq_ok_iff.mp htree
    obtain rfl := Except.ok.inj hp
    obtain ⟨row, hrow, hderives⟩ := sound_unsigned hnested hreads.startsSolid ho
    refine ⟨.operator .sub :: row, .cons hreads hrow, ?_, hheight⟩
    cases operand with
    | number x =>
        obtain rfl := hderives
        exact .negativeNumber x
    | string text =>
        obtain rfl := hderives
        exact .negativeText text
    | compound tree => exact .negative hderives.1

theorem sound_unary : Sound (Parser.unary scope nested) (Derives scope depth .unary) := by
  intro s p hs hp
  unfold Parser.unary at hp
  split at hp
  · obtain ⟨row, hrow, hderives, hheight⟩ := sound_primary hnested s p hs hp
    exact ⟨row, hrow, .plain hderives, hheight⟩
  · next inner hmark =>
    have hreads : Reads .operand s .not inner.1 := lone_not.reads hmark
    obtain ⟨operand, ho, hp⟩ := bind_eq_ok.mp hp
    obtain ⟨tree, htree, hp⟩ := bind_eq_ok.mp hp
    obtain ⟨hheight, rfl⟩ := limited_eq_ok_iff.mp htree
    obtain rfl := Except.ok.inj hp
    obtain ⟨row, hrow, hderives, -⟩ := sound_primary hnested inner.1 operand hreads.startsSolid ho
    exact ⟨.not :: row, .cons hreads hrow, .not hderives, hheight⟩

theorem sound_compare :
    Sound (Parser.compare scope nested) (Derives scope depth (.chain .comparison)) := by
  have hproduct := @sound_chain scope depth .product _ (sound_unary hnested)
  have hsum := @sound_chain scope depth .sum _ hproduct
  exact @sound_chain scope depth .comparison _ hsum

/-- What is read of a logical expression after some rounds: a chain, behind which there may be more,
or a conditional, behind which there is nothing more to read. -/
inductive LogicalSoFar (scope : Scope) (depth : Nat) {s : Input} (p : Parsed s) : Prop
  | chain {row : List Token} (hrow : Lexes .operand s row .operator p.rest)
      (hderives : Derives scope depth (.chain .junction) row p.tree)
      (hheight : p.tree.height ≤ maxHeight) : LogicalSoFar scope depth p
  | conditional {row : List Token} (hrow : Lexes .operand s row .operator p.rest)
      (hderives : Derives scope depth .logical row p.tree) (hheight : p.tree.height ≤ maxHeight)
      (hop : junctionOperator p.rest = none) (hmark : accept '?' p.rest = none) :
      LogicalSoFar scope depth p

/-- A logical operator goes on with the chain. -/
theorem LogicalSoFar.junction {s : Input} {left next : Parsed s} {op : BinaryOp}
    {rest : Shorter left.rest} {right : Parsed rest.1} (h : LogicalSoFar scope depth left)
    (hop : junctionOperator left.rest = some (op, rest))
    (hright : Parser.compare scope nested rest.1 = .ok right)
    (hheight : (Expr.binary op left.tree right.tree).height ≤ maxHeight)
    (htree : next.tree = .binary op left.tree right.tree) (hrest : next.rest = right.rest) :
    LogicalSoFar scope depth next := by
  cases h with
  | conditional _ _ _ hnone _ =>
      rw [hnone] at hop
      cases hop
  | @chain row hrow hderives _ =>
      obtain ⟨hreads, hstrength⟩ := reads_junction hop
      obtain ⟨row', hrow', hderives', -⟩ :=
        sound_compare hnested rest.1 right hreads.startsSolid hright
      have hchain : Derives scope depth (.chain .junction) (row ++ .operator op :: row')
          (.binary op left.tree right.tree) := by
        rw [← hstrength] at hderives ⊢
        exact .chain hderives (by rwa [hstrength])
      rw [← hrest] at hrow'
      rw [← htree] at hchain hheight
      exact .chain (hrow.append (.cons hreads hrow')) hchain hheight

/-- A question mark behind a chain makes a conditional of it, behind which no operator may follow.
-/
theorem LogicalSoFar.question {s : Input} {left next : Parsed s} {rest : Shorter left.rest}
    {thenBranch : Parsed rest.1} {afterColon : Shorter thenBranch.rest}
    {elseBranch : Parsed afterColon.1} (h : LogicalSoFar scope depth left)
    (hmark : accept '?' left.rest = some rest)
    (hthen : Parser.compare scope nested rest.1 = .ok thenBranch)
    (hcolon : accept ':' thenBranch.rest = some afterColon)
    (helse : nested afterColon.1 = .ok elseBranch)
    (hsettled : junctionOperator elseBranch.rest = none ∧ accept '?' elseBranch.rest = none)
    (hheight : (Expr.conditional left.tree thenBranch.tree elseBranch.tree).height ≤ maxHeight)
    (htree : next.tree = .conditional left.tree thenBranch.tree elseBranch.tree)
    (hrest : next.rest = elseBranch.rest) : LogicalSoFar scope depth next := by
  cases h with
  | conditional _ _ _ _ hnone =>
      rw [hnone] at hmark
      cases hmark
  | chain hrow hderives _ =>
      have hquestion : Reads .operator left.rest .question rest.1 := lone_question.reads hmark
      obtain ⟨second, hsecond, hderives', -⟩ :=
        sound_compare hnested rest.1 thenBranch hquestion.startsSolid hthen
      have hreads : Reads .operator thenBranch.rest .colon afterColon.1 := lone_colon.reads hcolon
      obtain ⟨third, hthird, ⟨hdepth, hderives''⟩, -⟩ :=
        hnested afterColon.1 elseBranch hreads.startsSolid helse
      have hconditional := Derives.conditional hderives hderives' hdepth hderives''
      rw [← hrest] at hthird hsettled
      rw [← htree] at hconditional hheight
      exact .conditional (hrow.append (.cons hquestion (hsecond.append (.cons hreads hthird))))
        hconditional hheight hsettled.1 hsettled.2

/-- A logical expression is read as long as a logical operator or a question mark follows, so none
follows when it ends. A conditional is therefore its last part. -/
theorem sound_logical
    (hsettled : ∀ s p, nested s = .ok p →
      junctionOperator p.rest = none ∧ accept '?' p.rest = none) :
    Sound (logical scope nested) (Derives scope depth .logical) := by
  intro s p hs hp
  obtain ⟨left, hleft, hp⟩ := bind_eq_ok.mp hp
  obtain ⟨row, hrow, hderives, hheight⟩ := sound_compare hnested s left hs hleft
  obtain ⟨hinvariant, -⟩ := logicalFrom_invariant (LogicalSoFar scope depth)
    (fun _ _ _ _ _ h hop hright hheight htree hrest _ =>
      h.junction hnested hop hright hheight htree hrest)
    (fun _ _ _ _ _ _ h hmark hthen hcolon helse hheight htree hrest _ =>
      h.question hnested hmark hthen hcolon helse (hsettled _ _ helse) hheight htree hrest)
    hp (.chain hrow (.single hderives) hheight)
  cases hinvariant with
  | chain hrow hderives hheight => exact ⟨_, hrow, .chains hderives, hheight⟩
  | conditional hrow hderives hheight _ _ => exact ⟨_, hrow, hderives, hheight⟩

end

/-- No logical operator and no question mark stands behind an expression. -/
theorem expression_settled (levels : Nat) (s : Input) (p : Parsed s)
    (hp : expression scope levels s = .ok p) :
    junctionOperator p.rest = none ∧ accept '?' p.rest = none := by
  cases levels with
  | zero => cases hp
  | succ levels =>
      obtain ⟨left, -, hp⟩ := bind_eq_ok.mp hp
      exact (logicalFrom_invariant (fun _ => True) (fun _ _ _ _ _ _ _ _ _ _ _ _ => trivial)
        (fun _ _ _ _ _ _ _ _ _ _ _ _ _ _ _ => trivial) hp trivial).2

/-- An expression is read at the depth that the levels left to it leave. -/
theorem sound_expression (levels : Nat) :
    ∀ depth, depth + levels = maxNesting →
      Sound (expression scope (levels + 1)) (Derives scope depth .logical) := by
  induction levels with
  | zero =>
      intro depth _
      exact sound_logical (fun _ _ _ hp => by cases hp) (expression_settled 0)
  | succ levels ih =>
      intro depth hdepth
      refine sound_logical (fun s p hs hp => ?_) (expression_settled (levels + 1))
      obtain ⟨row, hrow, hderives, hheight⟩ := ih (depth + 1) (by omega) s p hs hp
      exact ⟨row, hrow, ⟨by omega, hderives⟩, hheight⟩

/-- The tree of a formula is a tree of its text. -/
theorem sentence_of_parse {text : String} {tree : Expr String} (h : parse scope text = .ok tree) :
    Sentence scope text tree := by
  unfold parse at h
  split at h
  · next tree' hformula =>
    obtain rfl := Except.ok.inj h
    obtain ⟨p, hp, hformula⟩ := bind_eq_ok.mp hformula
    obtain ⟨row, hrow, hderives, hheight⟩ :=
      sound_expression maxNesting 0 (by omega) _ p (startsSolid_skipBlanks _) hp
    split at hformula
    · next hempty =>
      obtain rfl := Except.ok.inj hformula
      rw [List.isEmpty_iff.mp hempty] at hrow
      exact ⟨row, hrow, hderives, hheight⟩
    · cases hformula
  · cases h

end ProcessFormula.Grammar
