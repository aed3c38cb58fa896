import ProcessFormula.Proofs.Grammar.Levels
import ProcessFormula.Proofs.Grammar.Soundness
import ProcessFormula.Proofs.Parser.Failures

/-!
Why a reader fails. Either the text in front of it is wrong, which has nothing to do with the
limits; or the tree that it has just completed is one too tall; or an expression one level of
nesting further down fails, and then exactly that one level is opened between the start of the
reader's text and the start of the expression. Nothing else can happen, whatever has been read and
closed before.
-/

namespace ProcessFormula

/-- Faults that a reader finds in the text in front of it. Input that is left over is no fault of the
text that was read. -/
def Fault.isLocal : Fault → Bool
  | .tooDeep _ | .unreadable _ | .trailingInput _ => false
  | _ => true

namespace Grammar

open Text Lexeme ProcessFormula.Parser

/-- The tree of a row of lexemes, read to its end, is one too tall. -/
inductive TooTall (scope : Scope) (depth : Nat) (s unread : Input) : Prop
  | intro {lead row : List Token} {level : Level} {tree : Expr String} {t : Input}
      (hlead : Lexes .operand s lead .operand t) (hrow : Lexes .operand t row .operator unread)
      (hderives : Derives scope depth level row tree) (hheight : tree.height = maxHeight + 1) :
      TooTall scope depth s unread

/-- Why reading fails at a depth, where the expressions one level further down are read by `nested`.
Such an expression is the first behind the mark that opens its level, or another argument. -/
inductive Accounted (scope : Scope) (depth : Nat) (nested : Reader) (s : Input) : Failure → Prop
  | own {e : Failure} (h : e.fault.isLocal = true) : Accounted scope depth nested s e
  | tall {unread : Input} (h : TooTall scope depth s unread) :
      Accounted scope depth nested s ⟨.tooDeep maxHeight, unread⟩
  | begins {before : List Token} {mark : Token} {t : Input} {e : Failure}
      (hlead : Lexes .operand s (before ++ [mark]) .operand t) (hbefore : Opens 0 before)
      (hmark : Opens 1 [mark]) (he : nested t = .error e) : Accounted scope depth nested s e
  | goesOn {lead : List Token} {t : Input} {e : Failure} (hlead : Lexes .operand s lead .operand t)
      (hopens : Opens 1 lead) (hsome : ∃ u p, nested u = .ok p) (he : nested t = .error e) :
      Accounted scope depth nested s e

/-- Every failure of a reader has such a reason. -/
def Accounts (scope : Scope) (depth : Nat) (nested : Reader) {α : Input → Type}
    (reader : (s : Input) → Except Failure (α s)) : Prop :=
  ∀ s e, StartsSolid s → reader s = .error e → Accounted scope depth nested s e

variable {scope : Scope} {depth : Nat} {nested : Reader} {s u : Input} {e : Failure}

theorem TooTall.behind {unread : Input} (h : TooTall scope depth u unread) {lead : List Token}
    (hlead : Lexes .operand s lead .operand u) : TooTall scope depth s unread := by
  obtain ⟨hlead', hrow, hderives, hheight⟩ := h
  exact ⟨hlead.append hlead', hrow, hderives, hheight⟩

/-- A reason that holds behind some lexemes holds from their start, unless they leave a level open.
-/
theorem Accounted.behind (h : Accounted scope depth nested u e) {lead : List Token}
    (hlead : Lexes .operand s lead .operand u) (hopens : Opens 0 lead) :
    Accounted scope depth nested s e := by
  cases h with
  | own h => exact .own h
  | tall h => exact .tall (h.behind hlead)
  | begins hlead' hbefore hmark he =>
      have hlead'' := hlead.append hlead'
      rw [← List.append_assoc] at hlead''
      exact .begins hlead'' (hopens.append hbefore) hmark he
  | goesOn hlead' hopens' hsome he =>
      have hopens'' := hopens.append hopens'
      rw [Nat.zero_add] at hopens''
      exact .goesOn (hlead.append hlead') hopens'' hsome he

/-- A tree whose parts are not too tall is at most one too tall. -/
theorem tooTall_of_limited {tree : Expr String} {unread : Input} {row : List Token} {level : Level}
    (he : limited tree unread = .error e) (hrow : Lexes .operand s row .operator unread)
    (hderives : Derives scope depth level row tree) (hheight : tree.height ≤ maxHeight + 1) :
    Accounted scope depth nested s e := by
  obtain ⟨htall, rfl⟩ := limited_eq_error_iff.mp he
  exact .tall ⟨.nil, hrow, hderives, by omega⟩

theorem isLocal_unexpected (expected : Expected) (s : Input) :
    (unexpected expected s).fault.isLocal = true := by
  cases s <;> rfl

theorem isLocal_missingColon {thenBranch : Parsed s} :
    (missingColon thenBranch).fault.isLocal = true := by
  unfold missingColon
  split
  · split
    · rfl
    · exact isLocal_unexpected _ _
  · exact isLocal_unexpected _ _

theorem isLocal_withEquals {c : Char} {op : BinaryOp} {expected : Expected}
    (he : withEquals c op expected s = .error e) : e.fault.isLocal = true := by
  unfold withEquals at he
  split at he
  · cases he
  · split at he
    · cases he
    · obtain rfl := Except.error.inj he
      rfl

/-- Half an operator is a fault at the place where it stands. -/
theorem isLocal_operatorOf {strength : Strength} (he : operatorOf strength s = .error e) :
    e.fault.isLocal = true := by
  cases strength with
  | junction | sum | product => cases he
  | comparison =>
      rcases bind_eq_error_iff.mp he with he | ⟨ne, -, he⟩
      · exact isLocal_withEquals he
      rcases bind_eq_error_iff.mp he with he | ⟨eq, -, he⟩
      · exact isLocal_withEquals he
      · cases he

/-- A mark behind an expression leaves no level open. -/
theorem opens_mark {level : Level} {row : List Token} {tree : Expr String}
    (h : Derives scope depth level row tree) (hlevel : level ≠ .logical) {mark : Token}
    (hmark : mark.isPlain = true) : Opens 0 (row ++ [mark]) :=
  (h.levels.1 hlevel).append (opens_plain hmark)

/-- A chain fails in one of its operands, at a half operator or because it is too tall. -/
theorem accounts_chain {strength : Strength} {operand : Reader}
    (hsound : Sound operand (Derives scope depth (.operandOf strength)))
    (hoperand : Accounts scope depth nested operand) :
    Accounts scope depth nested (Parser.chain (operatorOf strength) operand) := by
  intro s e hs he
  rcases bind_eq_error_iff.mp he with he | ⟨left, hleft, he⟩
  · exact hoperand s e hs he
  obtain ⟨row, hrow, hderives, hheight⟩ := hsound s left hs hleft
  obtain ⟨last, ⟨row, hrow, hderives, hheight⟩, hfails⟩ :=
    chainFrom_failure (fun p => ∃ row, Lexes .operand s row .operator p.rest ∧
      Derives scope depth (.chain strength) row p.tree ∧ p.tree.height ≤ maxHeight)
      (by
        rintro left op rest right next ⟨row, hrow, hderives, -⟩ hop hright hheight htree hrest
        obtain ⟨hreads, rfl⟩ := reads_of_operatorOf hop
        obtain ⟨row', hrow', hderives', -⟩ := hsound rest.1 right hreads.startsSolid hright
        rw [hrest, htree]
        exact ⟨_, hrow.append (.cons hreads hrow'), .chain hderives hderives', hheight⟩)
      he ⟨row, hrow, .single hderives, hheight⟩
  cases hfails with
  | operator hfails => exact .own (isLocal_operatorOf hfails)
  | @operand op rest hop hfails =>
      obtain ⟨hreads, -⟩ := reads_of_operatorOf hop
      exact (hoperand rest.1 e hreads.startsSolid hfails).behind (hrow.append (.one hreads))
        (opens_mark hderives (by simp) rfl)
  | @height op rest right hop hright hfails =>
      obtain ⟨hreads, rfl⟩ := reads_of_operatorOf hop
      obtain ⟨row', hrow', hderives', hheight'⟩ := hsound rest.1 right hreads.startsSolid hright
      refine tooTall_of_limited hfails (hrow.append (.cons hreads hrow'))
        (.chain hderives hderives') ?_
      simp only [Expr.height]
      omega

/-! ### Operands -/

theorem isLocal_number {c : Char} (hc : startsNumber c = true) (he : number c s hc = .error e) :
    e.fault.isLocal = true := by
  simp only [number] at he
  split at he
  · cases he
  · obtain rfl := Except.error.inj he
    rfl

theorem isLocal_string {c : Char} (he : string c s = .error e) : e.fault.isLocal = true := by
  unfold string at he
  split at he
  · cases he
  · obtain rfl := Except.error.inj he
    rfl

theorem isLocal_variableNamed {name : String} {start : Input}
    (he : variableNamed scope name start = .error e) : e.fault.isLocal = true := by
  unfold variableNamed at he
  split at he
  · cases he
  · obtain rfl := Except.error.inj he
    rfl

theorem isLocal_quotedName {c : Char} (he : quotedName scope c s = .error e) :
    e.fault.isLocal = true := by
  unfold quotedName at he
  split at he
  · rcases bind_eq_error_iff.mp he with he | ⟨tree, -, he⟩
    · exact isLocal_variableNamed he
    · cases he
  · obtain rfl := Except.error.inj he
    rfl

theorem isLocal_closeParenthesis (he : closeParenthesis s = .error e) :
    e.fault.isLocal = true := by
  unfold closeParenthesis at he
  split at he
  · cases he
  · obtain rfl := Except.error.inj he
    exact isLocal_unexpected _ _

theorem accounted_parenthesised {inner : Shorter s} (hinner : accept '(' s = some inner)
    (he : parenthesised nested s inner = .error e) : Accounted scope depth nested s e := by
  have hopen : Reads .operand s .opening inner.1 := (lone_opening _).reads hinner
  rcases bind_eq_error_iff.mp he with he | ⟨p, -, he⟩
  · exact @Accounted.begins _ _ _ _ [] _ _ _ (.one hopen) opens_nil opens_opening he
  rcases bind_eq_error_iff.mp he with he | ⟨rest, -, he⟩
  · exact .own (isLocal_closeParenthesis he)
  · cases he

/-- A call fails because of its function or because it is too tall. -/
theorem accounted_call {name : String} {start unread : Input} {args : List (Expr String)}
    {row : List Token} (hrow : Lexes .operand s row .operator unread)
    (hderives : ∀ f, scope.resolve name = some f → f.arity.accepts args.length = true →
      Derives scope depth .operand row (.call f args))
    (hheight : Expr.tallest args ≤ maxHeight)
    (he : call scope name start args unread = .error e) : Accounted scope depth nested s e := by
  unfold call at he
  split at he
  · obtain rfl := Except.error.inj he
    exact .own rfl
  · next f hf =>
    split at he
    · next harity =>
      refine tooTall_of_limited he hrow (hderives f hf harity) ?_
      simp only [Expr.height]
      omega
    · obtain rfl := Except.error.inj he
      exact .own rfl

/-- Only a chain can be followed by another part of a logical expression. -/
theorem LogicalSoFar.chain_of_goesOn {left : Parsed s} (h : LogicalSoFar scope depth left)
    (hmore : junctionOperator left.rest ≠ none ∨ accept '?' left.rest ≠ none) :
    ∃ row, Lexes .operand s row .operator left.rest ∧
      Derives scope depth (.chain .junction) row left.tree ∧ left.tree.height ≤ maxHeight := by
  cases h with
  | chain hrow hderives hheight => exact ⟨_, hrow, hderives, hheight⟩
  | conditional _ _ _ hop hmark =>
      rcases hmore with hmore | hmore
      · exact absurd hop hmore
      · exact absurd hmark hmore

section

variable (hnested : Sound nested (DerivesNested scope depth))
include hnested

/-- Arguments fail at one of them, behind the commas that follow the arguments in front of it. -/
theorem failingArgument (hs : StartsSolid s) (he : arguments nested s = .error e) :
    nested s = .error e ∨ ∃ lead t, Lexes .operand s lead .operand t ∧
      (∀ levels, lead.foldl levelsBehind (.bracket :: levels) = .bracket :: levels) ∧
      (∃ u p, nested u = .ok p) ∧ nested t = .error e := by
  revert hs
  refine arguments_failure (fun s => StartsSolid s → nested s = .error e ∨
    ∃ lead t, Lexes .operand s lead .operand t ∧
      (∀ levels, lead.foldl levelsBehind (.bracket :: levels) = .bracket :: levels) ∧
      (∃ u p, nested u = .ok p) ∧ nested t = .error e) ?_ ?_ he
  · intro s hfails _
    exact .inl hfails
  · intro s first rest hfirst hcomma hmore hs
    obtain ⟨row, hrow, ⟨-, hderives⟩, -⟩ := hnested s first hs hfirst
    have hreads : Reads .operator first.rest .comma rest.1 := lone_comma.reads hcomma
    have hlead := hrow.append (.one hreads)
    right
    rcases hmore hreads.startsSolid with hfails | ⟨lead, t, hlead', hlevels, hsome, hfails⟩
    · exact ⟨_, _, hlead, hderives.levels.2.comma, ⟨s, first, hfirst⟩, hfails⟩
    · refine ⟨_, _, hlead.append hlead', fun levels => ?_, hsome, hfails⟩
      rw [List.foldl_append, hderives.levels.2.comma, hlevels]

/-- Every argument that was read is within the limit. -/
theorem tallest_arguments (hs : StartsSolid s) {a : Arguments s} (ha : arguments nested s = .ok a) :
    Expr.tallest a.trees ≤ maxHeight := by
  revert hs
  refine arguments_induction
    (fun s a => StartsSolid s → Expr.tallest a.trees ≤ maxHeight) ?_ ?_ ha
  · intro s first a hfirst _ htrees _ _ hs
    obtain ⟨-, -, -, hheight⟩ := hnested s first hs hfirst
    simpa [htrees, Expr.tallest] using hheight
  · intro s first rest more a hfirst hcomma hmore htrees _ _ hs
    obtain ⟨-, -, -, hheight⟩ := hnested s first hs hfirst
    have hreads : Reads .operator first.rest .comma rest.1 := lone_comma.reads hcomma
    rw [htrees]
    exact Nat.max_le.mpr ⟨hheight, hmore hreads.startsSolid⟩

section

variable {name : String} {t u : Input} (hfunction : Reads .operand s (.function name) t)
  (hopen : Reads .operator t .opening u)
include hfunction hopen

/-- An argument fails one level further in. -/
theorem accounted_arguments (he : arguments nested u = .error e) :
    Accounted scope depth nested s e := by
  rcases failingArgument hnested hopen.startsSolid he with
    he | ⟨lead, v, hlead, hlevels, hsome, he⟩
  · have hbefore : Lexes .operand s ([.function name] ++ [.opening]) .operand u :=
      .cons hfunction (.one hopen)
    exact .begins hbefore (opens_plain rfl) opens_opening he
  · refine .goesOn (.cons hfunction (.cons hopen hlead)) ⟨[.bracket], rfl, fun levels => ?_⟩
      hsome he
    exact hlevels levels

theorem accounted_argumentsCall {args : Arguments u} (hargs : arguments nested u = .ok args)
    {rest : Shorter args.rest} (hrest : closeParenthesis args.rest = .ok rest)
    (he : call scope name s args.trees rest.1 = .error e) : Accounted scope depth nested s e := by
  obtain ⟨rows, hne, hrows, htrees, hall⟩ := sound_arguments hnested hopen.startsSolid hargs
  have htallest := tallest_arguments hnested hopen.startsSolid hargs
  have hclosing := sound_closeParenthesis hrest
  rw [htrees] at he htallest
  refine accounted_call (.cons hfunction (.cons hopen (hrows.append (.one hclosing)))) ?_
    htallest he
  intro f hresolve harity
  obtain ⟨arg, harg⟩ := List.exists_mem_of_ne_nil rows hne
  exact .call hresolve (by simpa using harity) (fun _ => (hall arg harg).1)
    fun arg harg => (hall arg harg).2

omit hnested in
theorem accounted_emptyCall {rest : Shorter u} (hclose : accept ')' u = some rest)
    (he : call scope name s [] rest.1 = .error e) : Accounted scope depth nested s e := by
  have hclosing : Reads .operand u .closing rest.1 := (lone_closing _).reads hclose
  refine accounted_call (.cons hfunction (.cons hopen (.one hclosing))) ?_ (Nat.zero_le _) he
  intro f hresolve harity
  exact @Derives.call scope depth _ f [] hresolve harity (by simp) (by simp)

end

/-- An unquoted name fails itself, in its arguments or as a call. -/
theorem accounted_named (hs : StartsSolid s) (hhead : ∀ c ∈ s.head?, startsNumber c = false)
    (he : named scope nested s = .error e) : Accounted scope depth nested s e := by
  simp only [named] at he
  split at he
  · obtain rfl := Except.error.inj he
    exact .own (isLocal_unexpected _ _)
  next hne =>
  have hrun : Longest (Runs nameGoesOn) (bareName s).1 s (bareName s).2 :=
    bareName_eq_iff.mp rfl
  have hstart := head_bareName hs hhead hne
  split at he
  · rcases bind_eq_error_iff.mp he with he | ⟨tree, -, he⟩
    · exact .own (isLocal_variableNamed he)
    · cases he
  next inner hparen =>
  have hfunction : Reads .operand s (.function (String.ofList (bareName s).1))
      (bareName s).2 := by
    obtain ⟨more, hmore, -⟩ := accept_eq_some hparen
    exact .function hrun hstart (by rw [hmore]; rfl)
  have hopen : Reads .operator (bareName s).2 .opening inner.1 := (lone_opening _).reads hparen
  split at he
  · next rest hclose =>
    rcases bind_eq_error_iff.mp he with he | ⟨tree, -, he⟩
    · exact accounted_emptyCall hfunction hopen hclose he
    · cases he
  rcases bind_eq_error_iff.mp he with he | ⟨args, hargs, he⟩
  · exact accounted_arguments hnested hfunction hopen he
  rcases bind_eq_error_iff.mp he with he | ⟨rest, hrest, he⟩
  · exact .own (isLocal_closeParenthesis he)
  rcases bind_eq_error_iff.mp he with he | ⟨tree, -, he⟩
  · exact accounted_argumentsCall hnested hfunction hopen hargs hrest he
  · cases he

/-- An operand fails as its first character says what it is. -/
theorem accounted_unsigned (hs : StartsSolid s) (he : unsigned scope nested s = .error e) :
    Accounted scope depth nested s e := by
  unfold unsigned at he
  split at he
  · obtain rfl := Except.error.inj he
    exact .own rfl
  next c rest =>
  split at he
  · exact .own (isLocal_quotedName he)
  split at he
  · exact .own (isLocal_string he)
  split at he
  · next hnumber => exact .own (isLocal_number hnumber he)
  next hnumber =>
  split at he
  · next inner hinner => exact accounted_parenthesised hinner he
  · exact accounted_named hnested hs (by simpa using hnumber) he

theorem accounts_primary : Accounts scope depth nested (primary scope nested) := by
  intro s e hs he
  unfold primary at he
  split at he
  · rcases bind_eq_error_iff.mp he with he | ⟨p, -, he⟩
    · exact accounted_unsigned hnested hs he
    · cases he
  next inner hminus =>
  have hreads : Reads .operand s (.operator .sub) inner.1 := (lone_minus _).reads hminus
  rcases bind_eq_error_iff.mp he with he | ⟨p, hp, he⟩
  · exact (accounted_unsigned hnested hreads.startsSolid he).behind (.one hreads) (opens_plain rfl)
  rcases bind_eq_error_iff.mp he with he | ⟨tree, -, he⟩
  · obtain ⟨row, hrow, hderives⟩ := sound_unsigned hnested hreads.startsSolid hp
    obtain ⟨operand, _, rest, _⟩ := p
    cases operand with
    | number x =>
        obtain rfl := hderives
        exact tooTall_of_limited he (.cons hreads hrow) (.negativeNumber x)
          (Nat.le_succ_of_le (height_constant_le _))
    | string text =>
        obtain rfl := hderives
        exact tooTall_of_limited he (.cons hreads hrow) (.negativeText text)
          (Nat.le_succ_of_le (height_constant_le _))
    | compound tree =>
        obtain ⟨hderives, hheight⟩ := hderives
        exact tooTall_of_limited he (.cons hreads hrow) (.negative hderives)
          (Nat.succ_le_succ (Nat.max_le.mpr ⟨height_constant_le _, hheight⟩))
  · cases he

theorem accounts_unary : Accounts scope depth nested (Parser.unary scope nested) := by
  intro s e hs he
  unfold Parser.unary at he
  split at he
  · exact accounts_primary hnested s e hs he
  next inner hmark =>
  have hreads : Reads .operand s .not inner.1 := lone_not.reads hmark
  rcases bind_eq_error_iff.mp he with he | ⟨p, hp, he⟩
  · exact (accounts_primary hnested inner.1 e hreads.startsSolid he).behind (.one hreads)
      (opens_plain rfl)
  rcases bind_eq_error_iff.mp he with he | ⟨tree, -, he⟩
  · obtain ⟨row, hrow, hderives, hheight⟩ := sound_primary hnested inner.1 p hreads.startsSolid hp
    exact tooTall_of_limited he (.cons hreads hrow) (.not hderives) (Nat.succ_le_succ hheight)
  · cases he

theorem accounts_compare : Accounts scope depth nested (Parser.compare scope nested) := by
  have hsoundProduct := @sound_chain scope depth .product _ (sound_unary hnested)
  have hsoundSum := @sound_chain scope depth .sum _ hsoundProduct
  have hproduct := @accounts_chain scope depth nested .product _ (sound_unary hnested)
    (accounts_unary hnested)
  have hsum := @accounts_chain scope depth nested .sum _ hsoundProduct hproduct
  exact @accounts_chain scope depth nested .comparison _ hsoundSum hsum

/-- A logical expression fails in a comparison, in an else branch one level further in, at a colon
that is missing or because it is too tall. -/
theorem accounts_logical
    (hsettled : ∀ s p, nested s = .ok p →
      junctionOperator p.rest = none ∧ accept '?' p.rest = none) :
    Accounts scope depth nested (logical scope nested) := by
  intro s e hs he
  have hcompare := accounts_compare hnested
  have hsound := sound_compare hnested
  rcases bind_eq_error_iff.mp he with he | ⟨left, hleft, he⟩
  · exact hcompare s e hs he
  obtain ⟨row, hrow, hderives, hheight⟩ := hsound s left hs hleft
  obtain ⟨last, hlast, hfails⟩ := logicalFrom_failure (LogicalSoFar scope depth)
    (fun _ _ _ _ _ h hop hright hheight htree hrest =>
      h.junction hnested hop hright hheight htree hrest)
    (fun _ _ _ _ _ _ h hmark hthen hcolon helse hheight htree hrest =>
      h.question hnested hmark hthen hcolon helse (hsettled _ _ helse) hheight htree hrest)
    he (.chain hrow (.single hderives) hheight)
  cases hfails with
  | @operand op rest hop hfails =>
      obtain ⟨row, hrow, hderives, -⟩ := hlast.chain_of_goesOn (.inl (by simp [hop]))
      obtain ⟨hreads, -⟩ := reads_junction hop
      exact (hcompare rest.1 e hreads.startsSolid hfails).behind (hrow.append (.one hreads))
        (opens_mark hderives (by simp) rfl)
  | @height op rest right hop hright hfails =>
      obtain ⟨row, hrow, hderives, hheight⟩ := hlast.chain_of_goesOn (.inl (by simp [hop]))
      obtain ⟨hreads, hstrength⟩ := reads_junction hop
      obtain ⟨row', hrow', hderives', hheight'⟩ := hsound rest.1 right hreads.startsSolid hright
      refine tooTall_of_limited hfails (hrow.append (.cons hreads hrow'))
        (.chain (by rwa [hstrength]) (by rwa [hstrength])) ?_
      exact Nat.succ_le_succ (Nat.max_le.mpr ⟨hheight, hheight'⟩)
  | @thenBranch rest hmark hfails =>
      obtain ⟨row, hrow, hderives, -⟩ := hlast.chain_of_goesOn (.inr (by simp [hmark]))
      have hquestion : Reads .operator last.rest .question rest.1 := lone_question.reads hmark
      exact (hcompare rest.1 e hquestion.startsSolid hfails).behind
        (hrow.append (.one hquestion)) (opens_mark hderives (by simp) rfl)
  | colon _ hfails =>
      rw [← hfails]
      exact .own isLocal_missingColon
  | @elseBranch rest thenBranch afterColon hmark hthen hcolon hfails =>
      obtain ⟨row, hrow, hderives, -⟩ := hlast.chain_of_goesOn (.inr (by simp [hmark]))
      have hquestion : Reads .operator last.rest .question rest.1 := lone_question.reads hmark
      obtain ⟨second, hsecond, hderives', -⟩ :=
        hsound rest.1 thenBranch hquestion.startsSolid hthen
      have hreads : Reads .operator thenBranch.rest .colon afterColon.1 := lone_colon.reads hcolon
      have hlead := (hrow.append (.one hquestion)).append (hsecond.append (.one hreads))
      rw [← List.append_assoc] at hlead
      exact .begins hlead
        ((opens_mark hderives (by simp) rfl).append (hderives'.levels.1 (by simp))) opens_colon
        hfails
  | @conditional rest thenBranch afterColon elseBranch hmark hthen hcolon helse hfails =>
      obtain ⟨row, hrow, hderives, hheight⟩ := hlast.chain_of_goesOn (.inr (by simp [hmark]))
      have hquestion : Reads .operator last.rest .question rest.1 := lone_question.reads hmark
      obtain ⟨second, hsecond, hderives', hheight'⟩ :=
        hsound rest.1 thenBranch hquestion.startsSolid hthen
      have hreads : Reads .operator thenBranch.rest .colon afterColon.1 := lone_colon.reads hcolon
      obtain ⟨third, hthird, ⟨hdepth, hderives''⟩, hheight''⟩ :=
        hnested afterColon.1 elseBranch hreads.startsSolid helse
      exact tooTall_of_limited hfails
        (hrow.append (.cons hquestion (hsecond.append (.cons hreads hthird))))
        (.conditional hderives hderives' hdepth hderives'')
        (Nat.succ_le_succ (Nat.max_le.mpr ⟨Nat.max_le.mpr ⟨hheight, hheight'⟩, hheight''⟩))

end

/-- The expressions one level further down, read with one level less. -/
theorem sound_nested {levels : Nat} (hlevels : depth + levels = maxNesting) :
    Sound (expression scope levels) (DerivesNested scope depth) := by
  intro s p hs hp
  cases levels with
  | zero => cases hp
  | succ levels =>
      obtain ⟨row, hrow, hderives, hheight⟩ :=
        sound_expression levels (depth + 1) (by omega) s p hs hp
      exact ⟨row, hrow, ⟨by omega, hderives⟩, hheight⟩

/-- Every failure of an expression has its reason, at any depth. -/
theorem accounts_expression {levels : Nat} (hlevels : depth + levels = maxNesting) :
    Accounts scope depth (expression scope levels) (expression scope (levels + 1)) :=
  accounts_logical (sound_nested hlevels) (expression_settled levels)

end Grammar

end ProcessFormula
