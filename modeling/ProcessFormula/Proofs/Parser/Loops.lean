import ProcessFormula.Syntax.Parser

/-!
The loops of the parser, each described by what one round does: an equation for every round, and an
invariant lemma that carries a property of the tree read so far through all of them.
-/

namespace ProcessFormula.Parser

open Lexeme

/-- A sequence of two steps succeeds if both do. -/
theorem bind_eq_ok {ε α β : Type} {x : Except ε α} {f : α → Except ε β} {b : β} :
    x >>= f = .ok b ↔ ∃ a, x = .ok a ∧ f a = .ok b := by
  rcases x with e | a <;> simp [bind, Except.bind]

theorem bind_eq_error {ε α β : Type} {x : Except ε α} {f : α → Except ε β} {e : ε}
    (h : x = .error e) : x >>= f = .error e := by
  rw [h]
  rfl

theorem limited_eq_ok_iff {tree tree' : Expr String} {unread : Input} :
    limited tree unread = .ok tree' ↔ tree.height ≤ maxHeight ∧ tree = tree' := by
  unfold limited
  split
  · next h => simp [h]
  · next h => simp [h]

theorem limited_eq_ok {tree : Expr String} (h : tree.height ≤ maxHeight) (unread : Input) :
    limited tree unread = .ok tree :=
  limited_eq_ok_iff.mpr ⟨h, rfl⟩

/-- A call is built if its function is known, takes that many arguments and the tree is not too
tall. -/
theorem call_eq_ok_iff {scope : Scope} {name : String} {start unread : Input}
    {args : List (Expr String)} {tree : Expr String} :
    call scope name start args unread = .ok tree ↔
      ∃ f, scope.resolve name = some f ∧ f.arity.accepts args.length = true ∧
        (Expr.call f args).height ≤ maxHeight ∧ .call f args = tree := by
  unfold call
  split
  · next hnone => simp [hnone]
  · next f hf =>
    split
    · next harity => simp [hf, harity, limited_eq_ok_iff]
    · next harity => simp [hf, harity]

/-- A variable is read exactly if its name is known. -/
theorem variableNamed_eq_ok_iff {scope : Scope} {name : String} {start : Input}
    {tree : Expr String} :
    variableNamed scope name start = .ok tree ↔ scope.knows name = true ∧ .var name = tree := by
  unfold variableNamed
  split
  · next h => simp [h]
  · next h => simp [h]

/-! ### Chains of operators -/

section

variable {operator : (s : Input) → Except Failure (Operator s)} {operand : Reader} {s : Input}

theorem chainFrom_stop {left : Parsed s} (hstop : operator left.rest = .ok none) :
    chainFrom operator operand left = .ok left := by
  rw [chainFrom, hstop]
  rfl

/-- One round of a chain: an operator and its right operand. -/
theorem chainFrom_round {left : Parsed s} {op : BinaryOp} {rest : Shorter left.rest}
    {right : Parsed rest.1} (hop : operator left.rest = .ok (some (op, rest)))
    (hright : operand rest.1 = .ok right)
    (hheight : (Expr.binary op left.tree right.tree).height ≤ maxHeight) :
    ∃ next : Parsed s, next.tree = .binary op left.tree right.tree ∧ next.rest = right.rest ∧
      chainFrom operator operand left = chainFrom operator operand next := by
  refine ⟨⟨_, right.lastName.or left.lastName, right.rest, Nat.lt_trans (Nat.lt_trans right.shorter
    rest.2) left.shorter⟩, rfl, rfl, ?_⟩
  conv => lhs; rw [chainFrom, hop]
  simp only [bind, Except.bind, hright, limited_eq_ok hheight]

theorem chainFrom_error {left : Parsed s} {op : BinaryOp} {rest : Shorter left.rest} {e : Failure}
    (hop : operator left.rest = .ok (some (op, rest))) (hright : operand rest.1 = .error e) :
    chainFrom operator operand left = .error e := by
  rw [chainFrom, hop]
  simp only [bind, Except.bind, hright]

/-- What every round of a chain keeps holds when the chain ends, and it ends in front of text that
does not start with an operator of the chain. -/
theorem chainFrom_invariant (invariant : Parsed s → Prop)
    (hround : ∀ (left : Parsed s) (op : BinaryOp) (rest : Shorter left.rest)
      (right : Parsed rest.1) (next : Parsed s), invariant left →
      operator left.rest = .ok (some (op, rest)) → operand rest.1 = .ok right →
      (Expr.binary op left.tree right.tree).height ≤ maxHeight →
      next.tree = .binary op left.tree right.tree → next.rest = right.rest →
      next.lastName = right.lastName.or left.lastName → invariant next)
    {left p : Parsed s} (hp : chainFrom operator operand left = .ok p) (hleft : invariant left) :
    invariant p ∧ operator p.rest = .ok none := by
  induction left using chainFrom.induct with
  | case1 left ih =>
      rw [chainFrom] at hp
      obtain ⟨found, hfound, hp⟩ := bind_eq_ok.mp hp
      rcases found with _ | ⟨op, rest⟩
      · obtain rfl := Except.ok.inj hp
        exact ⟨hleft, hfound⟩
      · obtain ⟨right, hright, hp⟩ := bind_eq_ok.mp hp
        obtain ⟨tree, htree, hp⟩ := bind_eq_ok.mp hp
        obtain ⟨hheight, rfl⟩ := limited_eq_ok_iff.mp htree
        exact ih rest right _ hp
          (hround left op rest right _ hleft hfound hright hheight rfl rfl rfl)

end

/-! ### Logical expressions -/

def junctionOperator (s : Input) : Operator s := (doubled '&' .and s).or (doubled '|' .or s)

section

variable {scope : Scope} {nested : Reader} {s : Input}

theorem logicalFrom_stop {left : Parsed s} (hop : junctionOperator left.rest = none)
    (hmark : accept '?' left.rest = none) : logicalFrom scope nested left = .ok left := by
  unfold junctionOperator at hop
  rw [logicalFrom]
  simp only [hop, hmark]
  rfl

/-- One round of a logical expression that reads a logical operator. -/
theorem logicalFrom_junction {left : Parsed s} {op : BinaryOp} {rest : Shorter left.rest}
    {right : Parsed rest.1} (hop : junctionOperator left.rest = some (op, rest))
    (hright : compare scope nested rest.1 = .ok right)
    (hheight : (Expr.binary op left.tree right.tree).height ≤ maxHeight)
    (hshorter : right.rest.length < s.length) :
    logicalFrom scope nested left = logicalFrom scope nested
      ⟨.binary op left.tree right.tree, right.lastName.or left.lastName, right.rest, hshorter⟩ := by
  unfold junctionOperator at hop
  conv => lhs; rw [logicalFrom]
  simp only [hop, bind, Except.bind, hright, limited_eq_ok hheight]

theorem logicalFrom_round {left : Parsed s} {op : BinaryOp} {rest : Shorter left.rest}
    {right : Parsed rest.1} (hop : junctionOperator left.rest = some (op, rest))
    (hright : compare scope nested rest.1 = .ok right)
    (hheight : (Expr.binary op left.tree right.tree).height ≤ maxHeight) :
    ∃ next : Parsed s, next.tree = .binary op left.tree right.tree ∧ next.rest = right.rest ∧
      logicalFrom scope nested left = logicalFrom scope nested next :=
  ⟨_, rfl, rfl, logicalFrom_junction hop hright hheight
    (Nat.lt_trans (Nat.lt_trans right.shorter rest.2) left.shorter)⟩

/-- One round of a logical expression that reads a conditional. -/
theorem logicalFrom_question {left : Parsed s} {rest : Shorter left.rest}
    {thenBranch : Parsed rest.1} {afterColon : Shorter thenBranch.rest}
    {elseBranch : Parsed afterColon.1} (hop : junctionOperator left.rest = none)
    (hmark : accept '?' left.rest = some rest)
    (hthen : compare scope nested rest.1 = .ok thenBranch)
    (hcolon : accept ':' thenBranch.rest = some afterColon)
    (helse : nested afterColon.1 = .ok elseBranch)
    (hheight : (Expr.conditional left.tree thenBranch.tree elseBranch.tree).height ≤ maxHeight)
    (hshorter : elseBranch.rest.length < s.length) :
    logicalFrom scope nested left = logicalFrom scope nested
      ⟨.conditional left.tree thenBranch.tree elseBranch.tree,
        (elseBranch.lastName.or thenBranch.lastName).or left.lastName, elseBranch.rest,
        hshorter⟩ := by
  unfold junctionOperator at hop
  conv => lhs; rw [logicalFrom]
  simp only [hop, hmark, bind, Except.bind, hthen, hcolon, helse, limited_eq_ok hheight]

theorem logicalFrom_conditional {left : Parsed s} {rest : Shorter left.rest}
    {thenBranch : Parsed rest.1} {afterColon : Shorter thenBranch.rest}
    {elseBranch : Parsed afterColon.1} (hop : junctionOperator left.rest = none)
    (hmark : accept '?' left.rest = some rest)
    (hthen : compare scope nested rest.1 = .ok thenBranch)
    (hcolon : accept ':' thenBranch.rest = some afterColon)
    (helse : nested afterColon.1 = .ok elseBranch)
    (hheight :
      (Expr.conditional left.tree thenBranch.tree elseBranch.tree).height ≤ maxHeight) :
    ∃ next : Parsed s, next.tree = .conditional left.tree thenBranch.tree elseBranch.tree ∧
      next.rest = elseBranch.rest ∧
      logicalFrom scope nested left = logicalFrom scope nested next :=
  ⟨_, rfl, rfl, logicalFrom_question hop hmark hthen hcolon helse hheight
    (Nat.lt_trans (Nat.lt_trans elseBranch.shorter (Nat.lt_trans afterColon.2
      (Nat.lt_trans thenBranch.shorter rest.2))) left.shorter)⟩

theorem logicalFrom_error {left : Parsed s} {op : BinaryOp} {rest : Shorter left.rest} {e : Failure}
    (hop : junctionOperator left.rest = some (op, rest))
    (hright : compare scope nested rest.1 = .error e) :
    logicalFrom scope nested left = .error e := by
  unfold junctionOperator at hop
  rw [logicalFrom]
  simp only [hop]
  exact bind_eq_error hright

theorem logicalFrom_thenError {left : Parsed s} {rest : Shorter left.rest} {e : Failure}
    (hop : junctionOperator left.rest = none) (hmark : accept '?' left.rest = some rest)
    (hthen : compare scope nested rest.1 = .error e) :
    logicalFrom scope nested left = .error e := by
  unfold junctionOperator at hop
  rw [logicalFrom]
  simp only [hop, hmark]
  exact bind_eq_error hthen

/-- A then branch behind which no colon stands. -/
theorem logicalFrom_colonError {left : Parsed s} {rest : Shorter left.rest}
    {thenBranch : Parsed rest.1} (hop : junctionOperator left.rest = none)
    (hmark : accept '?' left.rest = some rest)
    (hthen : compare scope nested rest.1 = .ok thenBranch)
    (hcolon : accept ':' thenBranch.rest = none) :
    logicalFrom scope nested left = .error (missingColon thenBranch) := by
  unfold junctionOperator at hop
  rw [logicalFrom]
  simp only [hop, hmark, bind, Except.bind, hthen, hcolon]
  rfl

theorem logicalFrom_elseError {left : Parsed s} {rest : Shorter left.rest}
    {thenBranch : Parsed rest.1} {afterColon : Shorter thenBranch.rest} {e : Failure}
    (hop : junctionOperator left.rest = none) (hmark : accept '?' left.rest = some rest)
    (hthen : compare scope nested rest.1 = .ok thenBranch)
    (hcolon : accept ':' thenBranch.rest = some afterColon)
    (helse : nested afterColon.1 = .error e) : logicalFrom scope nested left = .error e := by
  unfold junctionOperator at hop
  rw [logicalFrom]
  simp only [hop, hmark, bind, Except.bind, hthen, hcolon, helse]

/-- What every round of a logical expression keeps holds when it ends, and it ends in front of text
that starts with neither a logical operator nor a question mark. -/
theorem logicalFrom_invariant (invariant : Parsed s → Prop)
    (hround : ∀ (left : Parsed s) (op : BinaryOp) (rest : Shorter left.rest)
      (right : Parsed rest.1) (next : Parsed s), invariant left →
      junctionOperator left.rest = some (op, rest) → compare scope nested rest.1 = .ok right →
      (Expr.binary op left.tree right.tree).height ≤ maxHeight →
      next.tree = .binary op left.tree right.tree → next.rest = right.rest →
      next.lastName = right.lastName.or left.lastName → invariant next)
    (hconditional : ∀ (left : Parsed s) (rest : Shorter left.rest) (thenBranch : Parsed rest.1)
      (afterColon : Shorter thenBranch.rest) (elseBranch : Parsed afterColon.1) (next : Parsed s),
      invariant left → accept '?' left.rest = some rest →
      compare scope nested rest.1 = .ok thenBranch →
      accept ':' thenBranch.rest = some afterColon → nested afterColon.1 = .ok elseBranch →
      (Expr.conditional left.tree thenBranch.tree elseBranch.tree).height ≤ maxHeight →
      next.tree = .conditional left.tree thenBranch.tree elseBranch.tree →
      next.rest = elseBranch.rest →
      next.lastName = (elseBranch.lastName.or thenBranch.lastName).or left.lastName →
      invariant next)
    {left p : Parsed s} (hp : logicalFrom scope nested left = .ok p) (hleft : invariant left) :
    invariant p ∧ junctionOperator p.rest = none ∧ accept '?' p.rest = none := by
  induction left using logicalFrom.induct with
  | case1 left op rest hop ih =>
      rw [logicalFrom] at hp
      simp only [hop] at hp
      obtain ⟨right, hright, hp⟩ := bind_eq_ok.mp hp
      obtain ⟨tree, htree, hp⟩ := bind_eq_ok.mp hp
      obtain ⟨hheight, rfl⟩ := limited_eq_ok_iff.mp htree
      exact ih right _ hp (hround left op rest right _ hleft hop hright hheight rfl rfl rfl)
  | case2 left hop hmark =>
      rw [logicalFrom] at hp
      simp only [hop, hmark] at hp
      obtain rfl := Except.ok.inj hp
      exact ⟨hleft, hop, hmark⟩
  | case3 left hop rest hmark ih =>
      rw [logicalFrom] at hp
      simp only [hop, hmark] at hp
      obtain ⟨thenBranch, hthen, hp⟩ := bind_eq_ok.mp hp
      split at hp
      · cases hp
      · next afterColon hcolon =>
        obtain ⟨elseBranch, helse, hp⟩ := bind_eq_ok.mp hp
        obtain ⟨tree, htree, hp⟩ := bind_eq_ok.mp hp
        obtain ⟨hheight, rfl⟩ := limited_eq_ok_iff.mp htree
        exact ih thenBranch afterColon elseBranch _ hp (hconditional left rest thenBranch afterColon
          elseBranch _ hleft hmark hthen hcolon helse hheight rfl rfl rfl)

end

/-! ### Arguments -/

section

variable {nested : Reader} {s : Input}

theorem arguments_last {first : Parsed s} (hfirst : nested s = .ok first)
    (hcomma : accept ',' first.rest = none) :
    ∃ a : Arguments s, arguments nested s = .ok a ∧ a.trees = [first.tree] ∧
      a.rest = first.rest := by
  refine ⟨⟨[first.tree], first.lastName, first.rest, first.shorter⟩, ?_, rfl, rfl⟩
  rw [arguments]
  simp only [hfirst, bind, Except.bind, hcomma]
  rfl

theorem arguments_more {first : Parsed s} {rest : Shorter first.rest} {more : Arguments rest.1}
    (hfirst : nested s = .ok first) (hcomma : accept ',' first.rest = some rest)
    (hmore : arguments nested rest.1 = .ok more) :
    ∃ a : Arguments s, arguments nested s = .ok a ∧ a.trees = first.tree :: more.trees ∧
      a.rest = more.rest := by
  refine ⟨⟨first.tree :: more.trees, more.lastName.or first.lastName, more.rest, Nat.lt_trans
    more.shorter (Nat.lt_trans rest.2 first.shorter)⟩, ?_, rfl, rfl⟩
  rw [arguments]
  simp only [hfirst, bind, Except.bind, hcomma, hmore]
  rfl

theorem arguments_error {e : Failure} (hfirst : nested s = .error e) :
    arguments nested s = .error e := by
  rw [arguments]
  exact bind_eq_error hfirst

theorem arguments_moreError {first : Parsed s} {rest : Shorter first.rest} {e : Failure}
    (hfirst : nested s = .ok first) (hcomma : accept ',' first.rest = some rest)
    (hmore : arguments nested rest.1 = .error e) : arguments nested s = .error e := by
  rw [arguments]
  simp only [hfirst, bind, Except.bind, hcomma, hmore]

/-- What holds of a last argument, and of an argument and a comma in front of arguments of which it
holds, holds of all arguments that are read. -/
theorem arguments_induction (property : (s : Input) → Arguments s → Prop)
    (hlast : ∀ (s : Input) (first : Parsed s) (a : Arguments s), nested s = .ok first →
      accept ',' first.rest = none → a.trees = [first.tree] → a.rest = first.rest →
      a.lastName = first.lastName → property s a)
    (hmore : ∀ (s : Input) (first : Parsed s) (rest : Shorter first.rest)
      (more : Arguments rest.1) (a : Arguments s), nested s = .ok first →
      accept ',' first.rest = some rest → property rest.1 more →
      a.trees = first.tree :: more.trees → a.rest = more.rest →
      a.lastName = more.lastName.or first.lastName → property s a)
    {a : Arguments s} (ha : arguments nested s = .ok a) : property s a := by
  induction s using arguments.induct with
  | case1 s ih =>
      rw [arguments] at ha
      obtain ⟨first, hfirst, ha⟩ := bind_eq_ok.mp ha
      split at ha
      · next hcomma =>
        obtain rfl := Except.ok.inj ha
        exact hlast s first _ hfirst hcomma rfl rfl rfl
      · next rest hcomma =>
        obtain ⟨more, hread, ha⟩ := bind_eq_ok.mp ha
        obtain rfl := Except.ok.inj ha
        exact hmore s first rest more _ hfirst hcomma (ih first rest hread) rfl rfl rfl

end

end ProcessFormula.Parser
