import ProcessFormula.Proofs.Expr.Height
import ProcessFormula.Proofs.Formula.Compiling
import ProcessFormula.Proofs.Grammar.Limits
import ProcessFormula.Proofs.Parser.Recording

/-!
The limits on nesting and on height as the builder keeps them. Its nesting counter is the number of
levels that the text in front of an expression leaves open: every reader hands the counter back as it
got it, also when it fails, so what was read and closed leaves no trace in it. The height that it
counts for a tree is the height of that tree. So a formula is refused for its nesting exactly where
the level 65 would be opened, and for its height exactly when the tree that was just completed has
the height 257.
-/

namespace ProcessFormula

open Lexeme Text Grammar

namespace Builder

open ProcessFormula.Parser (Failure Nonterminal maxNesting)

def Nonterminal.builder (setting : Setting) : Nonterminal → Level
  | .logical => logical setting
  | .compare => compare setting
  | .sum => sum setting
  | .product => product setting
  | .unary => unary setting
  | .primary => primary setting

/-- What the readers do with the counters, from every state and whether they succeed or fail. -/
structure KeepsCounters (setting : Setting) : Prop where
  level : ∀ (level : Nonterminal) (s : Input),
    Counts (Nonterminal.builder setting level s (nestedIn setting s))
  nested : ∀ s : Input, Counts (enter s (expression setting s))
  parenthesised : ∀ (s : Input) (inner : Shorter s),
    Counts (parenthesised (nestedIn setting s) inner)
  argumentList : ∀ (s : Input) (inner : Shorter s),
    Keeps (fun p => ∀ t ∈ p.result, t.Measured) (argumentList (nestedIn setting s) inner)
  named : ∀ s : Input, Counts (named setting s (nestedIn setting s))
  quotedVariable : ∀ (c : Char) (s : Input), Counts (quotedVariable setting c s)
  findVariable : ∀ (name : String) (start : Input),
    Keeps (fun _ => True) (findVariable setting name start)

/-- Every reader hands the counter back and measures its trees, also where it fails. -/
theorem keepsCounters (setting : Setting) : KeepsCounters setting where
  level level s := by
    have hnested := counts_nested setting s
    cases level with
    | logical => exact counts_logical setting s _ hnested
    | compare => exact counts_compare setting s _ hnested
    | sum => exact counts_sum setting s _ hnested
    | product => exact counts_product setting s _ hnested
    | unary => exact counts_unary setting s _ hnested
    | primary => exact counts_primary setting s _ hnested
  nested s := keeps_enter (counts_expression setting s)
  parenthesised s inner := counts_parenthesised (counts_nested setting s) inner
  argumentList s inner := keeps_argumentList (counts_nested setting s) inner
  named s := counts_named setting (counts_nested setting s)
  quotedVariable c s := counts_quotedVariable setting c s
  findVariable name start := keeps_findVariable setting name start

/-! ### The expressions that are read -/

/-- The reader for nested expressions, but for one text, at which it fails with a report of the state
in which it is called. -/
def reportingAt {s : Input} (t : Input) (report : State → Failure) (nested : Nested s) : Nested s :=
  fun u h => if u = t then get >>= fun d => throw (report d) else nested u h

/-- In the course of reading an expression that starts with `s`, in the state `d`, a nested one is
read from `t` in the state `d'`: whatever would be reported of the state there is the failure of the
whole. -/
def Begins (setting : Setting) (s : Input) (d : State) (t : Input) (d' : State) : Prop :=
  ∀ report, ((logical setting s (reportingAt t report (nestedIn setting s))).runFrom d).1 =
    .error (report d')

/-- In the course of reading a formula, an expression is read from the unread text in such a
state. -/
inductive During (o : Origin) (text : List Char) : Input → State → Prop
  | whole : During o text (skipBlanks text) o.state
  | nested {s t : Input} {d d' : State} (h : During o text s d)
      (hbegins : Begins o.setting s d t d') (hroom : d'.nesting ≠ maxNesting) :
      During o text t { d' with nesting := d'.nesting + 1 }

section

variable {o : Origin} {levels left : Nat} {names : List String} {s t : Input} {d d' : State}
  {text : List Char}

/-- Where the state is right, what the builder reports is a failure of the parser. -/
theorem refined_reportingAt (hlevels : levels + left = maxNesting)
    (hat : o.At levels names s d) {report : State → Failure} {failure : Failure}
    (hreport : ∀ names d, o.At levels names t d → report d = failure) :
    Refined (ReadMatches o levels names d)
      ((logical o.setting s (reportingAt t report (nestedIn o.setting s))).runFrom d)
      (Parser.logical o.scope (failingAt t failure (Parser.expression o.scope left)) s) := by
  refine refined_logical o levels _ s _ names d ?_ hat
  intro u hu names d h
  unfold reportingAt failingAt
  by_cases hut : u = t
  · subst hut
    rw [if_pos rfl, if_pos rfl, ← hreport names d h]
    exact .error _ _
  · rw [if_neg hut, if_neg hut]
    exact refined_nestedIn o left levels s hlevels u hu names d h

/-- The parser begins a nested expression where the builder does. -/
theorem Begins.parser (h : Begins o.setting s d t d') (hlevels : levels + left = maxNesting)
    (hat : o.At levels names s d) : Grammar.Begins o.scope left s t := fun failure =>
  (refined_reportingAt hlevels hat fun _ _ _ => rfl).eq_error (h fun _ => failure)

/-- The state is right where a nested expression begins. -/
theorem Begins.at_right (h : Begins o.setting s d t d') (hlevels : levels + left = maxNesting)
    (hat : o.At levels names s d) : ∃ names', o.At levels names' t d' := by
  classical
  -- The report tells whether the state is right; the parser fails with the report that it is.
  let right : Failure := ⟨.unreadable "", []⟩
  let wrong : Failure := ⟨.unexpectedEnd, []⟩
  let report (e : State) : Failure := if ∃ names', o.At levels names' t e then right else wrong
  have hreport (names' : List String) (e : State) (he : o.At levels names' t e) :
      report e = right := if_pos ⟨names', he⟩
  have hright := h.parser hlevels hat right
  rw [(refined_reportingAt hlevels hat hreport).eq_error (h report)] at hright
  have hne : wrong ≠ right := by simp [wrong, right]
  by_contra hwrong
  rw [show report d' = wrong from if_neg hwrong] at hright
  exact hne (Except.error.inj hright)

/-- What is known of the state in which an expression is read: it is right, and the parser reads an
expression there too, with the levels left that are not open. -/
theorem During.parser (h : During o text t d) : ∃ names left, o.At d.nesting names t d ∧
    d.nesting + left = maxNesting ∧ Grammar.During o.scope text (left + 1) t := by
  induction h with
  | whole => exact ⟨[], maxNesting, o.at_state _, Nat.zero_add _, .whole⟩
  | @nested s t d d' _ hbegins hroom ih =>
      obtain ⟨names, left, hat, hlevels, hduring⟩ := ih
      obtain ⟨names', hat'⟩ := hbegins.at_right hlevels hat
      have hnesting : d'.nesting = d.nesting := hat'.nesting
      obtain _ | left := left
      · exact absurd (hnesting.trans hlevels) hroom
      · refine ⟨names', left, ⟨hat'.tables.withNesting _, rfl, hat'.latest⟩, ?_, ?_⟩
        · change d'.nesting + 1 + left = maxNesting
          omega
        · exact .begun hduring (hbegins.parser hlevels hat)

/-- The counter is the number of levels that are open where an expression is read. -/
theorem During.opens (h : During o text t d) : d.nesting ≤ maxNesting ∧
    ∃ row, Lexes .operand (skipBlanks text) row .operand t ∧
      (openLevels row).length = d.nesting := by
  obtain ⟨names, left, -, hlevels, hduring⟩ := h.parser
  obtain ⟨row, hrow, opened, hopens, hopened⟩ := hduring.opens
  refine ⟨by omega, row, hrow, ?_⟩
  rw [hopens.length_openLevels]
  omega

/-- A nested expression begins with the levels open that its surroundings have open. -/
theorem During.nesting_begins (h : During o text s d) (hbegins : Begins o.setting s d t d') :
    d'.nesting = d.nesting := by
  obtain ⟨names, left, hat, hlevels, -⟩ := h.parser
  obtain ⟨names', hat'⟩ := hbegins.at_right hlevels hat
  exact hat'.nesting

/-- With all levels open no nested expression is read. -/
theorem During.parser_full (h : During o text s d) (hbegins : Begins o.setting s d t d')
    (hfull : d'.nesting = maxNesting) : Grammar.During o.scope text 0 t := by
  obtain ⟨names, left, hat, hlevels, hduring⟩ := h.parser
  have hnesting := h.nesting_begins hbegins
  obtain rfl : left = 0 := by omega
  exact .begun hduring (hbegins.parser hlevels hat)

end

/-! ### Parentheses -/

theorem chain_eq_error {operator : (s : Input) → Except Failure (Parser.Operator s)}
    {operand : Level} {s : Input} {nested : Nested s} {d d' : State} {e : Failure}
    (h : (operand s nested).runFrom d = (.error e, d')) :
    (chain operator operand s nested).runFrom d = (.error e, d') := by
  rw [chain, Build.runFrom_bind, h]

/-- An expression begins behind a parenthesis. -/
theorem begins_parenthesis (setting : Setting) (s : Input) (d : State) :
    Begins setting ('(' :: s) d (skipBlanks s) d := by
  intro report
  generalize nestedIn setting ('(' :: s) = nested
  have hunary : (unary setting ('(' :: s) (reportingAt (skipBlanks s) report nested)).runFrom d =
      (.error (report d), d) := by
    simp [unary, primary, signed, compound, accept, startsNumber, parenthesised, reportingAt,
      Build.runFrom_bind]
  have hcompare : (compare setting ('(' :: s)
      (reportingAt (skipBlanks s) report nested)).runFrom d = (.error (report d), d) :=
    chain_eq_error (chain_eq_error (chain_eq_error hunary))
  rw [logical, Build.runFrom_bind, hcompare]

theorem skipBlanks_parentheses (count : Nat) :
    skipBlanks (List.replicate count '(') = List.replicate count '(' := by
  refine skipBlanks_of_startsSolid fun c hc => ?_
  obtain rfl := List.eq_of_mem_replicate (List.mem_of_head? hc)
  decide

/-- Each parenthesis of a row of parentheses opens a level. -/
theorem during_parentheses (o : Origin) (opened left : Nat) (h : opened + left = maxNesting + 1)
    (hopened : opened ≤ maxNesting) :
    During o (List.replicate (maxNesting + 1) '(') (List.replicate left '(')
      { o.state with nesting := opened } := by
  induction opened generalizing left with
  | zero =>
      obtain rfl : left = maxNesting + 1 := by omega
      have hwhole := @During.whole o (List.replicate (maxNesting + 1) '(')
      rwa [skipBlanks_parentheses] at hwhole
  | succ opened ih =>
      have hbegins := begins_parenthesis o.setting (List.replicate left '(')
        { o.state with nesting := opened }
      rw [skipBlanks_parentheses, ← List.replicate_succ] at hbegins
      have hroom : opened ≠ maxNesting := by omega
      exact .nested (ih (left + 1) (by omega) (by omega)) hbegins hroom

end Builder

namespace Formula

open Builder

variable {registry : Registry} {now : Timestamp} {mode : BindingMode} {offered : List Variable}
  {text : String} {store : Store}

/-- So no compiled tree is higher than the limit. -/
theorem height_root_le {f : Formula} {store' : Store}
    (h : compile registry now mode offered text store = .ok (f, store')) :
    f.root.height ≤ 256 := by
  obtain ⟨tree, htree, hcompiled⟩ := compile_eq_ok_iff.mp h
  obtain ⟨-, -, -, hheight⟩ := sentence_of_parse htree
  obtain rfl := congrArg Prod.fst hcompiled
  exact (Expr.height_map _ tree).trans_le hheight

/-- A limit is exceeded by what was read of the text, up to the position of the error. -/
theorem explained_compile {e : CompileError} {limit : Nat}
    (h : compile registry now mode offered text store = .error e)
    (hlimit : e.fault = .tooDeep limit) :
    ∃ unread, e.position = text.toList.length - unread.length ∧
      Explained (scope registry now mode offered) Parser.maxNesting (skipBlanks text.toList)
        ⟨.tooDeep limit, unread⟩ := by
  rw [compile_eq_map, Parser.parse] at h
  split at h
  · cases h
  next failure hfails =>
  obtain rfl := Except.error.inj h
  obtain ⟨fault, unread⟩ := failure
  obtain rfl : fault = .tooDeep limit := hlimit
  exact ⟨unread, rfl, explained_formula hfails⟩

/-- The limits, for every text. Wherever an expression is read, the nesting counter is the number of
levels that the text in front of it opens and does not close, at most 64; a nested one that begins
with 64 levels open is refused there. Every reader hands the counter back as it got it, and the
height of every tree that it hands back is the one that was counted, at most 256. So no tree of a
formula is higher than 256, and the error for a limit means that the text in front of its position
opens the level 65, or ends with a row of lexemes whose tree has the height 257. -/
theorem compile_limits (registry : Registry) (now : Timestamp) (mode : BindingMode)
    (offered : List Variable) (text : String) (store : Store) :
    let start := origin registry now mode offered store
    (∀ t d, During start text.toList t d → d.nesting ≤ 64 ∧
      ∃ row, Lexes .operand (skipBlanks text.toList) row .operand t ∧
        (openLevels row).length = d.nesting) ∧
    (∀ s d t d', During start text.toList s d → Begins start.setting s d t d' →
      d'.nesting = d.nesting ∧ (d'.nesting = 64 →
        compile registry now mode offered text store =
          .error ⟨.tooDeep 64, text, text.toList.length - t.length⟩)) ∧
    KeepsCounters start.setting ∧
    (∀ tree : Expr Variable, tree.height = 1 + (tree.children.map Expr.height).foldr max 0) ∧
    (∀ f store', compile registry now mode offered text store = .ok (f, store') →
      f.root.height ≤ 256) ∧
    ∀ e limit, compile registry now mode offered text store = .error e →
      e.fault = .tooDeep limit →
      (limit = 64 ∧ ∃ before mark t,
        Lexes .operand (skipBlanks text.toList) (before ++ [mark]) .operand t ∧
          (openLevels before).length = 64 ∧ (openLevels (before ++ [mark])).length = 65 ∧
          e.position = text.toList.length - t.length) ∨
      (limit = 256 ∧ ∃ lead row t unread depth level tree,
        Lexes .operand (skipBlanks text.toList) lead .operand t ∧
          Lexes .operand t row .operator unread ∧
          Derives (scope registry now mode offered) depth level row tree ∧ tree.height = 257 ∧
          e.position = text.toList.length - unread.length) := by
  intro start
  refine ⟨fun t d h => h.opens, ?_, keepsCounters start.setting, Expr.height_eq_children,
    fun f store' => height_root_le, ?_⟩
  · intro s d t d' h hbegins
    refine ⟨h.nesting_begins hbegins, fun hfull => ?_⟩
    exact compile_of_failure ((h.parser_full hbegins hfull).fails rfl) store
  · intro e limit he hlimit
    obtain ⟨unread, hposition, hexplained⟩ := explained_compile he hlimit
    cases hexplained with
    | own h => cases h
    | tall h =>
        obtain ⟨hlead, hrow, hderives, hheight⟩ := h
        exact .inr ⟨rfl, _, _, _, _, _, _, _, hlead, hrow, hderives, hheight, hposition⟩
    | deep hlead hbefore hmark =>
        exact .inl ⟨rfl, _, _, _, hlead, hbefore.length_openLevels,
          (hbefore.append hmark).length_openLevels, hposition⟩

/-- A row of 65 parentheses is one parenthesis too long. Behind the first 64 the counter is 64. -/
theorem compile_limits_parentheses :
    let text := String.ofList (List.replicate 65 '(')
    let start := origin .builtinsOnly ⟨0, 0⟩ .noVariables [] .empty
    compile .builtinsOnly ⟨0, 0⟩ .noVariables [] text .empty = .error ⟨.tooDeep 64, text, 65⟩ ∧
      (∃ d, During start text.toList ['('] d ∧ d.nesting = 64 ∧
        ∃ row, Lexes .operand (skipBlanks text.toList) row .operand ['('] ∧
          (openLevels row).length = 64) ∧
      ∃ before mark t, Lexes .operand (skipBlanks text.toList) (before ++ [mark]) .operand t ∧
        (openLevels before).length = 64 ∧ (openLevels (before ++ [mark])).length = 65 ∧
        65 = text.toList.length - t.length := by
  intro text start
  obtain ⟨hopen, hfull, -, -, -, hpoint⟩ :=
    compile_limits .builtinsOnly ⟨0, 0⟩ .noVariables [] text .empty
  have htext : text.toList = List.replicate (Parser.maxNesting + 1) '(' := String.toList_ofList
  have hduring := during_parentheses start 64 1 rfl (Nat.le_refl 64)
  rw [← htext] at hduring
  have hbegins := begins_parenthesis start.setting [] { start.state with nesting := 64 }
  have herror := (hfull _ _ _ _ hduring hbegins).2 rfl
  rw [htext] at herror
  refine ⟨herror, ⟨_, hduring, rfl, (hopen _ _ hduring).2⟩, ?_⟩
  rcases hpoint _ 64 herror rfl with ⟨-, hdeep⟩ | ⟨hlimit, -⟩
  · exact hdeep
  · cases hlimit

end Formula

end ProcessFormula
