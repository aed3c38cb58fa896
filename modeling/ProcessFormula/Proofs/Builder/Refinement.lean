import ProcessFormula.Proofs.Builder.Correspondence
import ProcessFormula.Proofs.Builder.Counting

/-!
The builder does what the parser does. Every reader of the builder is compared with the parser's
reader of the same level, in the order in which they are built from each other: from a state that is
right for the names in front of a text it reads the same text or fails with the same failure, the
height that it counted is that of the parser's tree, and the state that it hands back is right again.
The parser is told how many levels may still be opened, the builder counts how many are open.
-/

namespace ProcessFormula.Builder

open Lexeme Text
open ProcessFormula.Parser (Failure Parsed Reader Operand Unsigned Operator Scope limited
  limited_eq_ok maxHeight
  maxNesting closeParenthesis unexpected doubled junctionOperator)

variable {o : Origin} {levels : Nat} {names : List String} {s rest : Input} {d d' : State}

/-- A tree of the builder is that of the parser, and the state is right behind it. -/
structure Matches (o : Origin) (levels : Nat) (names : List String) (s rest : Input) (d : State)
    (t : Subtree) (tree : Expr String) (lastName : Option (String × Input)) (d' : State) : Prop where
  height : t.height = tree.height
  node : o.Denotes names tree t.node
  passes : o.Passes levels names tree.vars lastName s rest d d'

def ReadMatches (o : Origin) (levels : Nat) (names : List String) (d : State) (p : Read Subtree s)
    (p' : Parsed s) (d' : State) : Prop :=
  p.rest = p'.rest ∧ Matches o levels names s p.rest d p.result p'.tree p'.lastName d'

/-- A reader for nested expressions is that of the parser where its state is right. -/
def Nested.Refines (o : Origin) (levels : Nat) (nested : Nested s) (nested' : Reader) : Prop :=
  ∀ t h names d, o.At levels names t d →
    Refined (ReadMatches o levels names d) ((nested t h).runFrom d) (nested' t)

def Level.Refines (o : Origin) (levels : Nat) (nested' : Reader) (level : Level)
    (level' : Reader) : Prop :=
  ∀ s (nested : Nested s) names d, nested.Refines o levels nested' → o.At levels names s d →
    Refined (ReadMatches o levels names d) ((level s nested).runFrom d) (level' s)

theorem Nested.Refines.behind {nested : Nested s} {nested' : Reader}
    (h : nested.Refines o levels nested') (inner : Shorter s) :
    (nested.behind inner).Refines o levels nested' :=
  fun t _ => h t _

/-! ### Names -/

/-- Looking a name up yields the variable that the name means and fails where the parser does not
know the name. -/
theorem refined_findVariable (h : o.Tables names d) (name : String) (start : Input) :
    Refined (fun v tree d' => v = o.variableOf (names ++ [name]) name ∧ tree = .var name ∧
        o.Looked (names ++ [name]) d d')
      ((findVariable o.setting name start).runFrom d)
      (Parser.variableNamed o.scope name start) := by
  unfold Parser.variableNamed
  cases hknown : o.scope.knows name with
  | true =>
      obtain ⟨d', hrun, hlooked⟩ := h.findVariable hknown start
      rw [hrun]
      exact .ok ⟨rfl, rfl, hlooked⟩
  | false =>
      rw [h.findVariable_unknown hknown start]
      exact .error _ _

/-- A variable as a leaf. -/
theorem Origin.Looked.matches (h : o.At levels names rest d) {name : String}
    (hlooked : o.Looked (names ++ [name]) d d') :
    Matches o levels names s rest d (.leaf (.var (o.variableOf (names ++ [name]) name))) (.var name)
      none d' := by
  refine ⟨rfl, o.denotes_var names name, ⟨hlooked.tables, ?_, ?_⟩, ?_, fun _ _ => nofun⟩
  · exact hlooked.nesting.trans h.nesting
  · rw [hlooked.lastName]
    exact h.latest
  · exact hlooked.lastName

/-- An unquoted name becomes the latest. -/
theorem Origin.At.name (h : o.At levels names s d) (name : String)
    (hlt : rest.length < s.length) :
    o.Passes levels names [] (some (name, s)) s rest d { d with lastName := some (name, s) } := by
  refine ⟨⟨?_, h.nesting, ?_⟩, rfl, ?_⟩
  · rw [List.append_nil]
    exact ⟨h.tables.inputs, h.tables.constants, h.tables.store, h.tables.known⟩
  · rintro _ _ ⟨rfl, rfl⟩
    exact hlt
  · rintro _ _ ⟨rfl, rfl⟩
    exact Nat.le_refl _

theorem Matches.behind {t : Subtree} {tree : Expr String} {lastName : Option (String × Input)}
    {u : Input} (h : Matches o levels names s rest d t tree lastName d')
    (hle : u.length ≤ rest.length) : Matches o levels names s u d t tree lastName d' :=
  ⟨h.height, h.node, h.passes.behind hle⟩

/-- What is read behind a stretch of text without trees. -/
theorem Matches.after {lastName lastName' : Option (String × Input)} {t : Subtree}
    {tree : Expr String} {u v : Input} {d'' : State}
    (h : o.Passes levels names [] lastName s u d d')
    (hmatches : Matches o levels names v rest d' t tree lastName' d'') (hle : v.length ≤ s.length) :
    Matches o levels names s rest d t tree (lastName'.or lastName) d'' := by
  refine ⟨hmatches.height, hmatches.node, ?_⟩
  have hpasses := hmatches.passes
  rw [← List.append_nil names] at hpasses
  simpa using h.trans hpasses hle

/-! ### Operands -/

theorem quotedName_of_some {c : Char} {s : Input} {r : List Char × Input} (hr : upTo c s = some r) :
    quotedName c s =
      .ok ⟨String.ofList r.1, r.2, shorter_quotedName hr⟩ := by
  unfold quotedName
  split
  · next r' hr' =>
    obtain rfl := Option.some.inj (hr.symm.trans hr')
    rfl
  · next hr' => cases hr.symm.trans hr'

theorem quotedName_of_none {c : Char} {s : Input} (hr : upTo c s = none) :
    quotedName c s = .error ⟨.unterminatedQuote .variableName, []⟩ := by
  unfold quotedName
  split
  · next r' hr' => cases hr.symm.trans hr'
  · rfl

/-- Reading a quoted name and finding its variable are two steps of the parser's one. -/
theorem quotedName_eq (scope : Scope) (c : Char) (s : Input) :
    Parser.quotedName scope c s = (do
      let name ← quotedName c s
      let tree ← Parser.variableNamed scope name.result (c :: s)
      return ⟨.compound tree, none, name.rest, name.shorter⟩) := by
  unfold Parser.quotedName
  split
  · next r hr =>
    rw [quotedName_of_some hr]
    rfl
  · next hr =>
    rw [quotedName_of_none hr]
    rfl

theorem string_of_some {c : Char} {s : Input} {r : List Char × Input}
    (hr : stringBody false s = some r) :
    string c s =
      .ok ⟨String.ofList r.1, r.2, shorter_string hr⟩ := by
  unfold string
  split
  · next r' hr' =>
    obtain rfl := Option.some.inj (hr.symm.trans hr')
    rfl
  · next hr' => cases hr.symm.trans hr'

theorem string_of_none {c : Char} {s : Input} (hr : stringBody false s = none) :
    string c s = .error ⟨.unterminatedQuote .string, []⟩ := by
  unfold string
  split
  · next r' hr' => cases hr.symm.trans hr'
  · rfl

theorem string_eq (c : Char) (s : Input) :
    Parser.string c s =
      (string c s).map fun text => ⟨.string text.result, none, text.rest, text.shorter⟩ := by
  unfold Parser.string
  split
  · next r hr =>
    rw [string_of_some hr]
    rfl
  · next hr =>
    rw [string_of_none hr]
    rfl

theorem number_eq (c : Char) (s : Input) (h : startsNumber c = true) :
    Parser.number c s h =
      (number c s h).map fun x => ⟨.number x.result, none, x.rest, x.shorter⟩ := by
  unfold Parser.number number
  dsimp only
  cases Decimal.literal? (numberRun false (c :: s)).1 with
  | none => rfl
  | some d => rfl

/-- An operand without its sign that is neither a number nor a string. -/
def CompoundMatches (o : Origin) (levels : Nat) (names : List String) (d : State)
    (p : Read Subtree s) (p' : Operand s) (d' : State) : Prop :=
  p.rest = p'.rest ∧ ∃ tree, p'.operand = .compound tree ∧
    Matches o levels names s p.rest d p.result tree p'.lastName d'

theorem Origin.At.constant (h : o.At levels names s d) (value : Value)
    (hle : rest.length ≤ s.length) :
    Matches o levels names s rest d (.leaf (.constant value)) (.constant value) none d :=
  ⟨rfl, Origin.denotes_constant value, h.passes hle⟩

/-- Two trees that stand one behind the other, joined by an operator. -/
theorem Matches.binary {left right : Subtree} {leftTree rightTree : Expr String}
    {lastName lastName' : Option (String × Input)} {u v : Input} {d'' : State}
    (h : Matches o levels names s rest d left leftTree lastName d')
    (h' : Matches o levels (names ++ leftTree.vars) u v d' right rightTree lastName' d'')
    (hle : u.length ≤ s.length) (op : BinaryOp) :
    Refined (fun t tree d₃ => Matches o levels names s v d t tree (lastName'.or lastName) d₃)
      ((liftM (binary op left right v) : Build Subtree).runFrom d'')
      (limited (.binary op leftTree rightTree) v) := by
  have hheight : max left.height right.height + 1 =
      (Expr.binary op leftTree rightTree).height := by
    rw [h.height, h'.height]
    rfl
  refine (refined_branch _ _ hheight v d'').mono ?_
  rintro _ _ _ ⟨rfl, rfl, rfl⟩
  exact ⟨hheight, h.node.binary h'.node op, h.passes.trans h'.passes hle⟩

theorem Matches.conditional {condition thenNode elseNode : Subtree}
    {conditionTree thenTree elseTree : Expr String}
    {lastName lastName' lastName'' : Option (String × Input)} {u v w x : Input} {d'' d₃ : State}
    (h : Matches o levels names s rest d condition conditionTree lastName d')
    (hthen : Matches o levels (names ++ conditionTree.vars) u v d' thenNode thenTree lastName' d'')
    (helse : Matches o levels (names ++ conditionTree.vars ++ thenTree.vars) w x d'' elseNode
      elseTree lastName'' d₃)
    (hle : u.length ≤ s.length) (hle' : w.length ≤ u.length) :
    Refined (fun t tree d₄ => Matches o levels names s x d t tree
        ((lastName''.or lastName').or lastName) d₄)
      ((liftM (branch (.conditional condition.node thenNode.node elseNode.node)
        (max (max condition.height thenNode.height) elseNode.height + 1) x) :
          Build Subtree).runFrom d₃)
      (limited (.conditional conditionTree thenTree elseTree) x) := by
  have hheight : max (max condition.height thenNode.height) elseNode.height + 1 =
      (Expr.conditional conditionTree thenTree elseTree).height := by
    rw [h.height, hthen.height, helse.height]
    rfl
  refine (refined_branch _ _ hheight x d₃).mono ?_
  rintro _ _ _ ⟨rfl, rfl, rfl⟩
  refine ⟨hheight, h.node.conditional hthen.node helse.node, ?_⟩
  have hbranches := hthen.passes.trans helse.passes hle'
  simpa [Expr.vars] using h.passes.trans hbranches hle

theorem refined_quotedVariable {c : Char} (h : o.At levels names (c :: s) d) :
    Refined (CompoundMatches o levels names d) ((quotedVariable o.setting c s).runFrom d)
      (Parser.quotedName o.scope c s) := by
  rw [quotedName_eq]
  refine (refined_lift (quotedName c s) d).bind ?_
  rintro name _ _ ⟨rfl, rfl⟩
  refine (refined_findVariable h.tables name.result (c :: s)).bind ?_
  rintro _ _ d' ⟨rfl, rfl, hlooked⟩
  exact .ok ⟨rfl, _, rfl, hlooked.matches (h.behind (Nat.le_of_lt name.shorter))⟩

theorem refined_parenthesised {nested : Nested s} {nested' : Reader}
    (hnested : nested.Refines o levels nested') (inner : Shorter s) (h : o.At levels names s d) :
    Refined (CompoundMatches o levels names d) ((parenthesised nested inner).runFrom d)
      (Parser.parenthesised nested' s inner) := by
  refine (hnested inner.1 inner.2 names d (h.behind (Nat.le_of_lt inner.2))).bind ?_
  rintro ⟨t, rest, hrest⟩ ⟨tree, lastName, _, hrest'⟩ d' ⟨rfl, hmatches⟩
  refine (refined_lift (closeParenthesis rest) d').bind ?_
  rintro close _ _ ⟨rfl, rfl⟩
  exact .ok ⟨rfl, tree, rfl, hmatches.height, hmatches.node,
    (hmatches.passes.behind (Nat.le_of_lt close.2)).earlier (Nat.le_of_lt inner.2)⟩

structure MatchesAll (o : Origin) (levels : Nat) (names : List String) (s rest : Input) (d : State)
    (args : List Subtree) (trees : List (Expr String)) (lastName : Option (String × Input))
    (d' : State) : Prop where
  heights : args.map Subtree.height = trees.map Expr.height
  nodes : o.DenotesAll names trees (args.map Subtree.node)
  passes : o.Passes levels names (Expr.allVars trees) lastName s rest d d'

theorem Matches.cons {t : Subtree} {tree : Expr String} {args : List Subtree}
    {trees : List (Expr String)} {lastName lastName' : Option (String × Input)} {u v : Input}
    {d'' : State} (h : Matches o levels names s rest d t tree lastName d')
    (hmore : MatchesAll o levels (names ++ tree.vars) u v d' args trees lastName' d'')
    (hle : u.length ≤ s.length) :
    MatchesAll o levels names s v d (t :: args) (tree :: trees) (lastName'.or lastName) d'' := by
  refine ⟨?_, h.node.cons hmore.nodes, h.passes.trans hmore.passes hle⟩
  rw [List.map_cons, List.map_cons, h.height, hmore.heights]

theorem Origin.At.matchesAll_nil (h : o.At levels names s d) (hle : rest.length ≤ s.length) :
    MatchesAll o levels names s rest d [] [] none d :=
  ⟨rfl, Origin.denotesAll_nil, h.passes hle⟩

theorem Matches.single {t : Subtree} {tree : Expr String} {lastName : Option (String × Input)}
    (h : Matches o levels names s rest d t tree lastName d') :
    MatchesAll o levels names s rest d [t] [tree] lastName d' := by
  refine ⟨?_, h.node.cons Origin.denotesAll_nil, ?_⟩
  · rw [List.map_singleton, List.map_singleton, h.height]
  · simpa [Expr.allVars] using h.passes

/-- The arguments of a call, one behind the other; each is read behind the names of those in front
of it. -/
theorem refined_arguments {nested : Nested s} {nested' : Reader}
    (hnested : nested.Refines o levels nested') (t : Input) (ht : t.length < s.length)
    (h : o.At levels names t d) :
    Refined (fun (p : Read (List Subtree) t) (p' : Parser.Arguments t) d' => p.rest = p'.rest ∧
        MatchesAll o levels names t p.rest d p.result p'.trees p'.lastName d')
      ((arguments nested t ht).runFrom d) (Parser.arguments nested' t) := by
  induction t, ht using arguments.induct generalizing names d with
  | case1 t ht ih =>
      rw [arguments, Parser.arguments]
      refine (hnested t ht names d h).bind ?_
      rintro ⟨first, rest, hrest⟩ ⟨tree, lastName, _, hrest'⟩ d' ⟨rfl, hmatches⟩
      dsimp only
      cases hcomma : accept ',' rest with
      | none =>
        exact .ok ⟨rfl, hmatches.single⟩
      | some after =>
        have hat := hmatches.passes.at_rest.behind (Nat.le_of_lt after.2)
        refine (ih ⟨first, rest, hrest⟩ after hat).bind ?_
        rintro ⟨args, rest, _⟩ ⟨trees, lastName, _, _⟩ d'' ⟨rfl, hmore⟩
        exact .ok ⟨rfl, hmatches.cons hmore (Nat.le_of_lt (Nat.lt_trans after.2 hrest))⟩

/-- Both look the function up and count the arguments, and both refuse a tree that is too tall. -/
theorem refined_call {name : String} {start unread : Input} {args : List Subtree}
    {trees : List (Expr String)} {lastName : Option (String × Input)}
    (h : MatchesAll o levels names s rest d args trees lastName d') :
    Refined (fun t tree d'' => Matches o levels names s rest d t tree lastName d'')
      ((liftM (call o.setting name start args unread) : Build Subtree).runFrom d')
      (Parser.call o.scope name start trees unread) := by
  have hlength : args.length = trees.length := by
    simpa using congrArg List.length h.heights
  have hresolve : o.scope.resolve name = o.setting.resolve name := rfl
  unfold call Parser.call
  rw [hlength, h.heights, ← Expr.tallest_eq_foldr, hresolve]
  cases o.setting.resolve name with
  | none => exact .error _ _
  | some function =>
      dsimp only
      split
      · refine (refined_branch _ (.call function trees) rfl unread d').mono ?_
        rintro _ _ _ ⟨rfl, rfl, rfl⟩
        exact ⟨rfl, h.nodes.call function, h.passes⟩
      · exact .error _ _

/-- An unquoted name is the latest one from here on, until another one is read. -/
theorem refined_named {nested : Nested s} {nested' : Reader}
    (hnested : nested.Refines o levels nested') (h : o.At levels names s d) :
    Refined (CompoundMatches o levels names d) ((named o.setting s nested).runFrom d)
      (Parser.named o.scope nested' s) := by
  unfold named Parser.named
  dsimp only
  split
  · exact .error _ _
  next hname =>
  have hlt := length_bareName_lt s hname
  have hpasses := h.name (String.ofList (bareName s).1) hlt
  have hat := hpasses.at_rest
  rw [List.append_nil] at hat
  rw [Build.runFrom_bind, Build.runFrom_modify]
  dsimp only
  cases hopen : accept '(' (bareName s).2 with
  | none =>
      refine (refined_findVariable hat.tables _ s).bind ?_
      rintro _ _ d' ⟨rfl, rfl, hlooked⟩
      exact .ok ⟨rfl, _, rfl, (hlooked.matches hat).after hpasses (Nat.le_of_lt hlt)⟩
  | some inner =>
      dsimp only
      unfold argumentList
      have hinner := hat.behind (Nat.le_of_lt inner.2)
      have hle := Nat.le_of_lt (Nat.lt_trans inner.2 hlt)
      cases hclose : accept ')' inner.1 with
      | some after =>
          simp only [pure_bind]
          refine (refined_call (hinner.matchesAll_nil (Nat.le_of_lt after.2))).bind ?_
          intro t tree d' hcall
          exact .ok ⟨rfl, tree, rfl, hcall.after hpasses hle⟩
      | none =>
          simp only [bind_assoc, pure_bind]
          refine (refined_arguments hnested inner.1 _ hinner).bind ?_
          rintro ⟨args, rest, _⟩ ⟨trees, lastName, _, _⟩ d' ⟨rfl, hargs⟩
          refine (refined_lift (closeParenthesis rest) d').bind ?_
          rintro close _ _ ⟨rfl, rfl⟩
          refine (refined_call hargs).bind ?_
          intro t tree d'' hcall
          exact .ok ⟨rfl, tree, rfl, (hcall.behind (Nat.le_of_lt close.2)).after hpasses hle⟩

theorem refined_compound {c : Char} {nested : Nested (c :: s)} {nested' : Reader}
    (hnested : nested.Refines o levels nested') (h : o.At levels names (c :: s) d)
    (hstring : c ≠ '\x22') (hnumber : ¬startsNumber c = true) :
    Refined (CompoundMatches o levels names d) ((compound o.setting c s nested).runFrom d)
      (Parser.unsigned o.scope nested' (c :: s)) := by
  unfold compound Parser.unsigned
  simp only [if_neg hstring, dif_neg hnumber]
  split
  · exact refined_quotedVariable h
  · cases accept '(' (c :: s) with
    | some inner => exact refined_parenthesised hnested inner h
    | none => exact refined_named hnested h

/-! ### Levels -/

def signedReader (scope : Scope) (nested' : Reader) (negative : Bool) : Reader := fun s => do
  let p ← Parser.unsigned scope nested' s
  let tree := p.operand.tree scope.now negative
  let tree ← if negative then limited tree p.rest else pure tree
  return ⟨tree, p.lastName, p.rest, p.shorter⟩

theorem primary_eq (scope : Scope) (nested' : Reader) (s : Input) :
    Parser.primary scope nested' s =
      match accept '-' s with
      | none => signedReader scope nested' false s
      | some inner => do
        let p ← signedReader scope nested' true inner.1
        return ⟨p.tree, p.lastName, p.rest, Nat.lt_trans p.shorter inner.2⟩ := by
  unfold Parser.primary
  cases accept '-' s with
  | none => rfl
  | some inner =>
      dsimp only [signedReader]
      cases Parser.unsigned scope nested' inner.1 with
      | error e => rfl
      | ok p =>
          dsimp only [bind, Except.bind, if_true]
          cases limited (p.operand.tree scope.now true) p.rest with
          | error e => rfl
          | ok tree => rfl

/-- A constant is no tree that is too tall, whether it had a minus sign or not. -/
theorem refined_constant (h : o.At levels names s d) (negative : Bool) (value : Value)
    (hlt : rest.length < s.length) :
    Refined (ReadMatches o levels names d)
      ((pure ⟨.leaf (.constant value), rest, hlt⟩ : Build (Read Subtree s)).runFrom d)
      (do
        let tree ← if negative then limited (.constant value) rest else pure (.constant value)
        return ⟨tree, none, rest, hlt⟩) := by
  have hheight : (Expr.constant value : Expr String).height ≤ maxHeight := by
    change 1 ≤ maxHeight
    decide
  rw [limited_eq_ok hheight]
  cases negative with
  | true => exact .ok ⟨rfl, h.constant value (Nat.le_of_lt hlt)⟩
  | false => exact .ok ⟨rfl, h.constant value (Nat.le_of_lt hlt)⟩

/-- An operand with its sign, whichever kind of operand it is. -/
theorem refined_signed (o : Origin) (levels : Nat) (nested' : Reader) (negative : Bool) :
    (signed o.setting negative).Refines o levels nested' (signedReader o.scope nested' negative) := by
  intro s nested names d hnested h
  unfold signed signedReader
  cases s with
  | nil => exact .error _ _
  | cons c s =>
      dsimp only
      by_cases hstring : c = '\x22'
      · have hunsigned : Parser.unsigned o.scope nested' (c :: s) = Parser.string c s := by
          simp [Parser.unsigned, hstring]
        rw [if_pos hstring, hunsigned, string_eq]
        cases hread : string c s with
        | error e => exact .error _ _
        | ok text => exact refined_constant h negative _ text.shorter
      by_cases hnumber : startsNumber c = true
      · have hunsigned : Parser.unsigned o.scope nested' (c :: s) = Parser.number c s hnumber := by
          have hquote : ¬(c = '\x27' ∨ c = '\x60') := by
            rintro (rfl | rfl)
            · cases hnumber
            · cases hnumber
          simp [Parser.unsigned, hstring, hnumber, hquote]
        rw [if_neg hstring, dif_pos hnumber, hunsigned, number_eq]
        cases hread : number c s hnumber with
        | error e => exact .error _ _
        | ok x => exact refined_constant h negative _ x.shorter
      rw [if_neg hstring, dif_neg hnumber]
      refine (refined_compound hnested h hstring hnumber).bind ?_
      rintro ⟨t, rest, _⟩ ⟨_, lastName, _, _⟩ d' ⟨rfl, tree, rfl, hmatches⟩
      cases negative with
      | false => exact .ok ⟨rfl, hmatches⟩
      | true =>
          have hzero := h.constant (.number o.setting.now 0.0) (Nat.le_refl _)
          rw [← List.append_nil names] at hmatches
          refine (hzero.binary hmatches (Nat.le_refl _) .sub).bind ?_
          intro t' tree' d'' hresult
          rw [Option.or_none] at hresult
          exact .ok ⟨rfl, hresult⟩

theorem refined_primary (o : Origin) (levels : Nat) (nested' : Reader) :
    (primary o.setting).Refines o levels nested' (Parser.primary o.scope nested') := by
  intro s nested names d hnested h
  rw [primary_eq]
  unfold primary
  cases accept '-' s with
  | none => exact refined_signed o levels nested' false s nested names d hnested h
  | some inner =>
      have hle := Nat.le_of_lt inner.2
      refine (refined_signed o levels nested' true inner.1 _ names d (hnested.behind inner)
        (h.behind hle)).bind ?_
      rintro ⟨t, rest, _⟩ ⟨tree, lastName, _, _⟩ d' ⟨rfl, hmatches⟩
      exact .ok ⟨rfl, hmatches.height, hmatches.node, hmatches.passes.earlier hle⟩

theorem refined_unary (o : Origin) (levels : Nat) (nested' : Reader) :
    (unary o.setting).Refines o levels nested' (Parser.unary o.scope nested') := by
  intro s nested names d hnested h
  unfold unary Parser.unary
  cases accept '!' s with
  | none => exact refined_primary o levels nested' s nested names d hnested h
  | some inner =>
      have hle := Nat.le_of_lt inner.2
      refine (refined_primary o levels nested' inner.1 _ names d (hnested.behind inner)
        (h.behind hle)).bind ?_
      rintro ⟨t, rest, _⟩ ⟨tree, lastName, _, _⟩ d' ⟨rfl, hmatches⟩
      have hheight : t.height + 1 = (Expr.unary .not tree).height := by
        rw [hmatches.height]
        rfl
      refine (refined_branch (.unary .not t.node) _ hheight rest d').bind ?_
      rintro _ _ _ ⟨rfl, rfl, rfl⟩
      exact .ok ⟨rfl, hheight, hmatches.node.unary .not, hmatches.passes.earlier hle⟩

/-- The next operand of a chain and the tree that it is joined to. Whatever goes on from matching
trees refines as a whole. -/
theorem refined_round {operand : Level} {operand' : Reader} {nested : Nested s} {nested' : Reader}
    {t : Subtree} {tree : Expr String} {lastName : Option (String × Input)}
    (h : Matches o levels names s rest d t tree lastName d') (hrest : rest.length < s.length)
    (hoperand : operand.Refines o levels nested' operand')
    (hnested : nested.Refines o levels nested') (op : BinaryOp) (after : Shorter rest)
    {α β : Type} {related : α → β → State → Prop} {next : Read Subtree after.1 → Subtree → Build α}
    {next' : Parsed after.1 → Expr String → Except Failure β}
    (hnext : ∀ right right' t' tree' d'', right.rest = right'.rest →
      Matches o levels names s right.rest d t' tree' (right'.lastName.or lastName) d'' →
      Refined related ((next right t').runFrom d'') (next' right' tree')) :
    Refined related
      ((do
        let right ← operand after.1 (nested.behind ⟨after.1, Nat.lt_trans after.2 hrest⟩)
        let tree ← binary op t right.result right.rest
        next right tree).runFrom d')
      (do
        let right ← operand' after.1
        let tree ← limited (.binary op tree right.tree) right.rest
        next' right tree) := by
  have hat := h.passes.at_rest.behind (Nat.le_of_lt after.2)
  refine (hoperand after.1 _ _ _ (hnested.behind _) hat).bind ?_
  rintro ⟨right, rest', hright⟩ ⟨rightTree, lastName', _, _⟩ d'' ⟨rfl, hright'⟩
  have hle := Nat.le_of_lt (Nat.lt_trans after.2 hrest)
  refine (h.binary hright' hle op).bind fun t' tree' d₃ hresult => ?_
  exact hnext ⟨right, rest', hright⟩ _ t' tree' d₃ rfl hresult

/-- A chain of operators, by induction on the text that is unread behind the tree so far. -/
theorem refined_chainFrom {operator : (s : Input) → Except Failure (Operator s)} {operand : Level}
    {operand' : Reader} {nested : Nested s} {nested' : Reader}
    (hoperand : operand.Refines o levels nested' operand')
    (hnested : nested.Refines o levels nested') (left : Read Subtree s) (left' : Parsed s)
    (h : ReadMatches o levels names d left left' d') :
    Refined (ReadMatches o levels names d) ((chainFrom operator operand nested left).runFrom d')
      (Parser.chainFrom operator operand' left') := by
  induction left using chainFrom.induct generalizing left' d' with
  | case1 left ih =>
      rw [chainFrom, Parser.chainFrom]
      obtain ⟨t, rest, hrest⟩ := left
      obtain ⟨tree, lastName, _, _⟩ := left'
      obtain ⟨rfl, hmatches⟩ := h
      refine (refined_lift (operator rest) d').bind ?_
      rintro found _ _ ⟨rfl, rfl⟩
      rcases found with _ | ⟨op, after⟩
      · exact .ok ⟨rfl, hmatches⟩
      · refine refined_round hmatches hrest hoperand hnested op after ?_
        intro right right' t' tree' d'' hsame hresult
        exact ih after right t' _ ⟨hsame, hresult⟩

theorem refined_chain {operator : (s : Input) → Except Failure (Operator s)} {operand : Level}
    {operand' nested' : Reader} (hoperand : operand.Refines o levels nested' operand') :
    (chain operator operand).Refines o levels nested' (Parser.chain operator operand') := by
  intro s nested names d hnested h
  refine (hoperand s nested names d hnested h).bind ?_
  intro left left' d' hleft
  exact refined_chainFrom hoperand hnested left left' hleft

theorem refined_compare (o : Origin) (levels : Nat) (nested' : Reader) :
    (compare o.setting).Refines o levels nested' (Parser.compare o.scope nested') :=
  refined_chain (refined_chain (refined_chain (refined_unary o levels nested')))

/-- Both blame the same name for a missing colon: the latest one, if it stands in the branch. -/
theorem missingColon_eq {thenBranch : Parsed s} (h : o.At levels names s d)
    (hpasses : o.Passes levels names vars thenBranch.lastName s rest d d') :
    missingColon d'.lastName s thenBranch.rest = Parser.missingColon thenBranch := by
  unfold missingColon Parser.missingColon
  rw [hpasses.latest]
  cases hname : thenBranch.lastName with
  | some named =>
      have hle := hpasses.within named.1 named.2 hname
      simp [hle]
  | none =>
      rw [Option.none_or]
      split
      · next name start hlast =>
        have hlt := h.latest name start hlast
        rw [if_neg (by omega)]
      · rfl

/-- Logical operators and conditionals. The latest unquoted name of the builder's state is the one
that the parser hands up, so that both blame the same name for a missing colon. -/
theorem refined_logicalFrom {nested : Nested s} {nested' : Reader}
    (hnested : nested.Refines o levels nested') (left : Read Subtree s) (left' : Parsed s)
    (h : ReadMatches o levels names d left left' d') :
    Refined (ReadMatches o levels names d) ((logicalFrom o.setting nested left).runFrom d')
      (Parser.logicalFrom o.scope nested' left') := by
  induction left using logicalFrom.induct generalizing left' d' with
  | case1 left op after hop ih =>
      rw [logicalFrom, Parser.logicalFrom]
      obtain ⟨t, rest, hrest⟩ := left
      obtain ⟨tree, lastName, _, _⟩ := left'
      obtain ⟨rfl, hmatches⟩ := h
      simp only [hop]
      refine refined_round hmatches hrest (refined_compare o levels nested') hnested op after ?_
      intro right right' t' tree' d'' hsame hresult
      exact ih right t' _ ⟨hsame, hresult⟩
  | case2 left hop hmark =>
      rw [logicalFrom, Parser.logicalFrom]
      obtain ⟨t, rest, hrest⟩ := left
      obtain ⟨tree, lastName, _, _⟩ := left'
      obtain ⟨rfl, hmatches⟩ := h
      simp only [hop, hmark]
      exact .ok ⟨rfl, hmatches⟩
  | case3 left hop after hmark inside ih =>
      rw [logicalFrom, Parser.logicalFrom]
      obtain ⟨t, rest, hrest⟩ := left
      obtain ⟨tree, lastName, _, _⟩ := left'
      obtain ⟨rfl, hmatches⟩ := h
      simp only [hop, hmark]
      have hat := hmatches.passes.at_rest.behind (Nat.le_of_lt after.2)
      refine (refined_compare o levels nested' after.1 _ _ _ (hnested.behind _) hat).bind ?_
      rintro ⟨thenNode, rest', hthen⟩ ⟨thenTree, lastName', _, _⟩ d'' ⟨rfl, hthen'⟩
      dsimp only
      cases hcolon : accept ':' rest' with
      | none =>
          simp only [Build.runFrom_bind, Build.runFrom_get, missingColon_eq hat hthen'.passes]
          exact .error _ _
      | some afterColon =>
          have hat' := hthen'.passes.at_rest.behind (Nat.le_of_lt afterColon.2)
          refine (hnested afterColon.1 _ _ _ hat').bind ?_
          rintro ⟨elseNode, rest'', helse⟩ ⟨elseTree, lastName'', _, _⟩ d₃ ⟨rfl, helse'⟩
          have hle := Nat.le_of_lt (Nat.lt_trans after.2 hrest)
          have hle' := Nat.le_of_lt (Nat.lt_trans afterColon.2 hthen)
          refine (hmatches.conditional hthen' helse' hle hle').bind ?_
          intro t' tree' d₄ hresult
          exact ih ⟨thenNode, rest', hthen⟩ afterColon ⟨elseNode, rest'', helse⟩ t' _ ⟨rfl, hresult⟩

theorem refined_logical (o : Origin) (levels : Nat) (nested' : Reader) :
    (logical o.setting).Refines o levels nested' (Parser.logical o.scope nested') := by
  intro s nested names d hnested h
  refine (refined_compare o levels nested' s nested names d hnested h).bind ?_
  intro left left' d' hleft
  exact refined_logicalFrom hnested left left' hleft

/-! ### Formulas -/

/-- The counter says nothing about the tables. -/
theorem Origin.Tables.withNesting (h : o.Tables names d) (nesting : Nat) :
    o.Tables names { d with nesting } :=
  ⟨h.inputs, h.constants, h.store, h.known⟩

/-- A level more is open inside, and it is closed again behind what is read there. -/
theorem refined_enter {inside : Build (Read Subtree s)} {read : Except Failure (Parsed s)}
    (hlevels : levels ≠ maxNesting) (h : o.At levels names s d)
    (hinside : ∀ d, o.At (levels + 1) names s d →
      Refined (ReadMatches o (levels + 1) names d) (inside.runFrom d) read) :
    Refined (ReadMatches o levels names d) ((enter s inside).runFrom d) read := by
  have hopen : d.nesting ≠ maxNesting := h.nesting ▸ hlevels
  have hread := hinside { d with nesting := d.nesting + 1 }
    ⟨h.tables.withNesting _, congrArg (· + 1) h.nesting, h.latest⟩
  rw [Build.runFrom_enter, if_neg hopen]
  dsimp only
  generalize inside.runFrom _ = run at hread ⊢
  cases hread with
  | error e d' => exact .error e _
  | ok hmatches =>
      obtain ⟨hrest, hheight, hnode, ⟨hat, hlatest, hwithin⟩⟩ := hmatches
      have hclosed := congrArg (· - 1) hat.nesting
      exact .ok ⟨hrest, hheight, hnode, ⟨hat.tables.withNesting _, hclosed, hat.latest⟩, hlatest,
        hwithin⟩

/-- The levels that are open and those that may still be opened make up the limit. -/
theorem refined_nestedIn (o : Origin) (left : Nat) :
    ∀ levels s, levels + left = maxNesting →
      (nestedIn o.setting s).Refines o levels (Parser.expression o.scope left) := by
  induction left with
  | zero =>
      intro levels s hlevels t ht names d h
      have hfull : d.nesting = maxNesting := h.nesting.trans hlevels
      rw [nestedIn, Build.runFrom_enter, if_pos hfull]
      exact .error _ _
  | succ left ih =>
      intro levels s hlevels t ht names d h
      refine refined_enter (by omega) h fun d h => ?_
      rw [expression_eq]
      exact refined_logical o (levels + 1) _ t _ names d (ih (levels + 1) t (by omega)) h

/-- Expressions, by induction on the length of the text. The builder opens a level where the parser
gives one away, so that both refuse to go deeper at the same place. -/
theorem refined_expression (o : Origin) (h : o.At 0 names s d) :
    Refined (ReadMatches o 0 names d) ((expression o.setting s).runFrom d)
      (Parser.expression o.scope (maxNesting + 1) s) := by
  rw [expression_eq]
  exact refined_logical o 0 _ s _ names d (refined_nestedIn o maxNesting 0 s (Nat.zero_add _)) h

/-- The state at the start is right in front of any text. -/
theorem Origin.at_state (o : Origin) (s : Input) : o.At 0 [] s o.state := by
  refine ⟨⟨?_, rfl, ?_, fun _ => nofun⟩, rfl, fun _ _ => nofun⟩
  · exact (List.append_nil o.callers).symm
  · simp [Origin.state, Formula.freeNames, distinct, Store.extend]

/-- A formula is built exactly if it is parsed, out of the tree that it is parsed as. -/
theorem refined_formula (o : Origin) (text : List Char) :
    Refined (fun root tree d => root = tree.map (o.variableOf tree.vars) ∧ o.Tables tree.vars d)
      ((formula o.setting text).runFrom o.state) (Parser.formula o.scope text) := by
  refine (refined_expression o (o.at_state (skipBlanks text))).bind ?_
  rintro ⟨t, rest, _⟩ ⟨tree, lastName, _, _⟩ d ⟨rfl, hmatches⟩
  dsimp only
  split
  · have hnode := hmatches.node []
    rw [List.nil_append, List.append_nil] at hnode
    exact .ok ⟨hnode, hmatches.passes.at_rest.tables⟩
  · exact .error _ _

end ProcessFormula.Builder
