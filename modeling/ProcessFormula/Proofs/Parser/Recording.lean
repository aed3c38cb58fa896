import ProcessFormula.Proofs.Grammar.Scanning
import ProcessFormula.Proofs.Parser.Loops

/-!
The parser with a record of what it did: which reader was called where, which one returned, which
marks were read past, and how far each round of a loop went. The record stays when a reader fails. A
recording reader gives the result of the reader that it records, so facts about the record are facts
about the run of the parser.
-/

namespace ProcessFormula.Parser

open Lexeme Text

/-- The expressions of the grammar, each with a reader of its own. -/
inductive Nonterminal where
  | logical | compare | sum | product | unary | primary
  deriving DecidableEq

/-- The loops: over the operators of a level, arguments, and the characters of a lexeme. -/
inductive Loop where
  | operators (level : Nonterminal)
  | arguments | name | number | string | quotedName
  deriving DecidableEq

/-- What a run of the parser does. Each time the text `s` was not read yet when the event began, and
`rest` was not when it ended. -/
inductive Event where
  | calls (level : Nonterminal) (s : Input)
  | returns (level : Nonterminal) (s rest : Input)
  | goesRound (loop : Loop) (s rest : Input)
  | passes (s rest : Input)
  deriving DecidableEq

namespace Event

def start : Event → Input
  | calls _ s | returns _ s _ | goesRound _ s _ | passes s _ => s

def unread : Event → Input
  | calls _ s => s
  | returns _ _ rest | goesRound _ _ rest | passes _ rest => rest

def isPrimaryCall : Event → Bool
  | calls .primary _ => true
  | _ => false

end Event

/-- A computation together with the events up to its end. -/
structure Recorded (α : Type) where
  events : List Event
  result : Except Failure α

namespace Recorded

variable {α β : Type}

instance : Monad Recorded where
  pure a := ⟨[], .ok a⟩
  bind x f :=
    match x.result with
    | .ok a => ⟨x.events ++ (f a).events, (f a).result⟩
    | .error e => ⟨x.events, .error e⟩

def record (events : List Event) : Recorded Unit := ⟨events, .ok ()⟩

/-- A computation in which nothing happens that is recorded. -/
def silent (x : Except Failure α) : Recorded α := ⟨[], x⟩

@[simp]
theorem result_pure (a : α) : (pure a : Recorded α).result = pure a := rfl

@[simp]
theorem result_record (events : List Event) : (record events).result = pure () := rfl

@[simp]
theorem result_silent (x : Except Failure α) : (silent x).result = x := rfl

@[simp]
theorem result_bind (x : Recorded α) (f : α → Recorded β) :
    (x >>= f).result = x.result >>= fun a => (f a).result := by
  obtain ⟨events, e | a⟩ := x
  · rfl
  · rfl

/-- What happens in a first step stands at the beginning of the record. -/
theorem events_bind (x : Recorded α) (f : α → Recorded β) :
    ∃ more, (x >>= f).events = x.events ++ more := by
  obtain ⟨events, e | a⟩ := x
  · exact ⟨[], (List.append_nil events).symm⟩
  · exact ⟨(f a).events, rfl⟩

end Recorded

open Recorded

/-! ### The rounds of the loops over characters -/

def nameRounds : Input → List Event
  | [] => []
  | c :: s =>
    if isNameChar c then .goesRound .name (c :: s) (skipBlanks s) :: nameRounds s
    else if isBlank c then nameRounds s
    else []

def numberRounds (afterMark : Bool) : Input → List Event
  | [] => []
  | c :: s =>
    if continuesNumber afterMark c then
      .goesRound .number (c :: s) (skipBlanks s) :: numberRounds (isExponentMark c) s
    else if isBlank c then numberRounds afterMark s
    else []

/-- The rounds of the loop that reads a string up to the quote that closes it. -/
def stringRounds (escaped : Bool) : Input → List Event
  | [] => []
  | c :: s =>
    if c = '\x22' ∧ escaped = false then []
    else .goesRound .string (c :: s) s :: stringRounds (c == '\\') s

def quotedRounds (c : Char) : Input → List Event
  | [] => []
  | d :: s => if d = c then [] else .goesRound .quotedName (d :: s) s :: quotedRounds c s

/-- The character that a round of such a loop reads. -/
def Event.reads (event : Event) : List Char := event.start.take 1

/-- A name is read in one round for each of its characters. -/
theorem reads_nameRounds (s : Input) : (nameRounds s).flatMap Event.reads = (bareName s).1 := by
  fun_induction bareName s with
  | case1 => simp [nameRounds]
  | case2 c s hc name rest hs ih =>
      rw [hs] at ih
      simp [nameRounds, hc, ih, Event.reads, Event.start]
  | case3 c s hc hblank ih => simpa [nameRounds, hc, hblank] using ih
  | case4 c s hc hblank => simp [nameRounds, hc, hblank]

theorem reads_numberRounds (afterMark : Bool) (s : Input) :
    (numberRounds afterMark s).flatMap Event.reads = (numberRun afterMark s).1 := by
  fun_induction numberRun afterMark s with
  | case1 => simp [numberRounds]
  | case2 afterMark c s hc digits rest hs ih =>
      rw [hs] at ih
      simp [numberRounds, hc, ih, Event.reads, Event.start]
  | case3 afterMark c s hc hblank ih => simpa [numberRounds, hc, hblank] using ih
  | case4 afterMark c s hc hblank => simp [numberRounds, hc, hblank]

/-- A string is read in one round for each character between its quotes, backslashes too. -/
theorem reads_stringRounds {escaped : Bool} {s : Input} {r : List Char × Input}
    (hr : stringBody escaped s = some r) :
    ((stringRounds escaped s).flatMap Event.reads).filter (· ≠ '\\') = r.1 := by
  induction s generalizing escaped r with
  | nil => simp [stringBody] at hr
  | cons c s ih =>
      unfold stringBody at hr
      unfold stringRounds
      split at hr
      · next hclose =>
        obtain rfl := Option.some.inj hr
        simp [hclose]
      · next hclose =>
        rw [if_neg hclose]
        split at hr
        · next hbackslash =>
          simpa [Event.reads, Event.start, hbackslash] using ih hr
        · next hbackslash =>
          obtain ⟨r', hr', rfl⟩ := Option.map_eq_some_iff.mp hr
          have hmark : (c == '\\') = false := beq_eq_false_iff_ne.mpr hbackslash
          simpa [Event.reads, Event.start, hbackslash, hmark] using ih hr'

theorem reads_quotedRounds {c : Char} {s : Input} {r : List Char × Input}
    (hr : upTo c s = some r) : (quotedRounds c s).flatMap Event.reads = r.1 := by
  induction s generalizing r with
  | nil => simp [upTo] at hr
  | cons d s ih =>
      unfold upTo at hr
      unfold quotedRounds
      split at hr
      · next hclose =>
        obtain rfl := Option.some.inj hr
        simp [hclose]
      · next hclose =>
        obtain ⟨r', hr', rfl⟩ := Option.map_eq_some_iff.mp hr
        simpa [Event.reads, Event.start, hclose] using ih hr'

/-- The rounds of a loop over characters read what the reader of the lexeme reads. Backslashes are
left out of the text of a string, which is the only difference. -/
structure RoundsRead : Prop where
  name (s : Input) : (nameRounds s).flatMap Event.reads = (bareName s).1
  number (afterMark : Bool) (s : Input) :
    (numberRounds afterMark s).flatMap Event.reads = (numberRun afterMark s).1
  string (escaped : Bool) (s : Input) (r : List Char × Input) (hr : stringBody escaped s = some r) :
    ((stringRounds escaped s).flatMap Event.reads).filter (· ≠ '\\') = r.1
  quotedName (c : Char) (s : Input) (r : List Char × Input) (hr : upTo c s = some r) :
    (quotedRounds c s).flatMap Event.reads = r.1

theorem rounds_read : RoundsRead where
  name := reads_nameRounds
  number := reads_numberRounds
  string _ _ _ := reads_stringRounds
  quotedName _ _ _ := reads_quotedRounds

/-! ### Recording readers -/

namespace Recording

/-! What is read behind a rest of a text leaves a rest that is shorter than the text. -/

theorem shorter_once {s : Input} (behind : Shorter s) : behind.1.length < s.length := behind.2

theorem shorter_operand {s : Input} (inner : Shorter s) (p : Operand inner.1) :
    p.rest.length < s.length :=
  Nat.lt_trans p.shorter inner.2

theorem shorter_parsed {s : Input} (inner : Shorter s) (p : Parsed inner.1) :
    p.rest.length < s.length :=
  Nat.lt_trans p.shorter inner.2

theorem shorter_closed {s : Input} (inner : Shorter s) (p : Parsed inner.1)
    (close : Shorter p.rest) : close.1.length < s.length :=
  Nat.lt_trans close.2 (shorter_parsed inner p)

theorem shorter_empty {s : Input} (behind : Shorter s) (inner : Shorter behind.1)
    (close : Shorter inner.1) : close.1.length < s.length :=
  Nat.lt_trans close.2 (Nat.lt_trans inner.2 behind.2)

theorem shorter_arguments {s : Input} (behind : Shorter s) (inner : Shorter behind.1)
    (args : Arguments inner.1) (close : Shorter args.rest) : close.1.length < s.length :=
  Nat.lt_trans close.2 (Nat.lt_trans args.shorter (Nat.lt_trans inner.2 behind.2))

/-- A reader that writes down what it does. -/
abbrev Recorder := (s : Input) → Recorded (Parsed s)

def erase (reader : Recorder) : Reader := fun s => (reader s).result

/-- Writes down where the reader of a level is called and where it returns. -/
def traced (level : Nonterminal) (reader : Recorder) : Recorder := fun s => do
  record [.calls level s]
  let p ← reader s
  record [.returns level s p.rest]
  return p

/-- The call of a reader is written down in front of all that happens in it, and behind that where it
returns, if it does. -/
theorem events_traced (level : Nonterminal) (reader : Recorder) (s : Input) :
    (traced level reader s).events = .calls level s :: (reader s).events ++
      match (reader s).result with
      | .ok p => [.returns level s p.rest]
      | .error _ => [] := by
  unfold traced
  obtain ⟨events, failure | p⟩ := reader s
  · simp [bind, record]
  · simp [bind, record, pure]

def chainFrom (level : Nonterminal) (operator : (s : Input) → Except Failure (Operator s))
    (operand : Recorder) {s : Input} (left : Parsed s) : Recorded (Parsed s) := do
  match ← silent (operator left.rest) with
  | none => return left
  | some (op, rest) =>
    record [.passes left.rest rest.1]
    let right ← operand rest.1
    let tree ← silent (limited (.binary op left.tree right.tree) right.rest)
    record [.goesRound (.operators level) left.rest right.rest]
    have shorter : right.rest.length < left.rest.length := Nat.lt_trans right.shorter rest.2
    chainFrom level operator operand
      ⟨tree, right.lastName.or left.lastName, right.rest, Nat.lt_trans shorter left.shorter⟩
termination_by left.rest.length

def chain (level : Nonterminal) (operator : (s : Input) → Except Failure (Operator s))
    (operand : Recorder) : Recorder :=
  traced level fun s => do
    let left ← operand s
    chainFrom level operator operand left

def closeParenthesis (s : Input) : Recorded (Shorter s) := do
  let rest ← silent (Parser.closeParenthesis s)
  record [.passes s rest.1]
  return rest

def arguments (nested : Recorder) (s : Input) : Recorded (Arguments s) := do
  let first ← nested s
  match accept ',' first.rest with
  | none =>
    record [.goesRound .arguments s first.rest]
    return ⟨[first.tree], first.lastName, first.rest, first.shorter⟩
  | some rest =>
    record [.goesRound .arguments s rest.1]
    have shorter : rest.1.length < s.length := Nat.lt_trans rest.2 first.shorter
    let more ← arguments nested rest.1
    return ⟨first.tree :: more.trees, more.lastName.or first.lastName, more.rest,
      Nat.lt_trans more.shorter shorter⟩
termination_by s.length

def number (c : Char) (s : Input) (h : startsNumber c = true) : Recorded (Operand (c :: s)) := do
  record (numberRounds false (c :: s))
  silent (Parser.number c s h)

def string (c : Char) (s : Input) : Recorded (Operand (c :: s)) := do
  record [.passes (c :: s) s]
  record (stringRounds false s)
  silent (Parser.string c s)

def quotedName (scope : Scope) (c : Char) (s : Input) : Recorded (Operand (c :: s)) := do
  record [.passes (c :: s) s]
  record (quotedRounds c s)
  silent (Parser.quotedName scope c s)

def parenthesised (nested : Recorder) (s : Input) (inner : Shorter s) : Recorded (Operand s) := do
  record [.passes s inner.1]
  let p ← nested inner.1
  let rest ← closeParenthesis p.rest
  return ⟨.compound p.tree, p.lastName, rest.1, shorter_closed inner p rest⟩

/-- Goes on behind an unquoted name: a variable, or a function if a parenthesis follows. -/
def namedBehind (scope : Scope) (nested : Recorder) (name : String) {s : Input}
    (behind : Shorter s) : Recorded (Operand s) :=
  match accept '(' behind.1 with
  | none => do
    let tree ← silent (variableNamed scope name s)
    return ⟨.compound tree, some (name, s), behind.1, shorter_once behind⟩
  | some inner => do
    record [.passes behind.1 inner.1]
    match accept ')' inner.1 with
    | some rest =>
      record [.passes inner.1 rest.1]
      let tree ← silent (call scope name s [] rest.1)
      return ⟨.compound tree, some (name, s), rest.1, shorter_empty behind inner rest⟩
    | none =>
      let args ← arguments nested inner.1
      let rest ← closeParenthesis args.rest
      let tree ← silent (call scope name s args.trees rest.1)
      return ⟨.compound tree, args.lastName.or (some (name, s)), rest.1,
        shorter_arguments behind inner args rest⟩

def named (scope : Scope) (nested : Recorder) (s : Input) : Recorded (Operand s) := do
  record (nameRounds s)
  if h : (bareName s).1 = [] then silent (.error (unexpected .operand s))
  else
    namedBehind scope nested (String.ofList (bareName s).1)
      ⟨(bareName s).2, length_bareName_lt s h⟩

def unsigned (scope : Scope) (nested : Recorder) (s : Input) : Recorded (Operand s) :=
  match s with
  | [] => silent (.error ⟨.unexpectedEnd, []⟩)
  | c :: rest =>
    if c = '\x27' ∨ c = '\x60' then quotedName scope c rest
    else if c = '\x22' then string c rest
    else if h : startsNumber c = true then number c rest h
    else
      match accept '(' (c :: rest) with
      | some inner => parenthesised nested (c :: rest) inner
      | none => named scope nested (c :: rest)

def primary (scope : Scope) (nested : Recorder) : Recorder :=
  traced .primary fun s =>
    match accept '-' s with
    | none => do
      let p ← unsigned scope nested s
      return ⟨p.operand.tree scope.now false, p.lastName, p.rest, p.shorter⟩
    | some inner => do
      record [.passes s inner.1]
      let p ← unsigned scope nested inner.1
      let tree ← silent (limited (p.operand.tree scope.now true) p.rest)
      return ⟨tree, p.lastName, p.rest, shorter_operand inner p⟩

def unary (scope : Scope) (nested : Recorder) : Recorder :=
  traced .unary fun s =>
    match accept '!' s with
    | none => primary scope nested s
    | some inner => do
      record [.passes s inner.1]
      let p ← primary scope nested inner.1
      let tree ← silent (limited (.unary .not p.tree) p.rest)
      return ⟨tree, p.lastName, p.rest, shorter_parsed inner p⟩

def product (scope : Scope) (nested : Recorder) : Recorder :=
  chain .product productOperator (unary scope nested)

def sum (scope : Scope) (nested : Recorder) : Recorder :=
  chain .sum sumOperator (product scope nested)

def compare (scope : Scope) (nested : Recorder) : Recorder :=
  chain .compare compareOperator (sum scope nested)

def logicalFrom (scope : Scope) (nested : Recorder) {s : Input} (left : Parsed s) :
    Recorded (Parsed s) := do
  match junctionOperator left.rest with
  | some (op, rest) =>
    record [.passes left.rest rest.1]
    let right ← compare scope nested rest.1
    let tree ← silent (limited (.binary op left.tree right.tree) right.rest)
    record [.goesRound (.operators .logical) left.rest right.rest]
    have shorter : right.rest.length < left.rest.length := Nat.lt_trans right.shorter rest.2
    logicalFrom scope nested
      ⟨tree, right.lastName.or left.lastName, right.rest, Nat.lt_trans shorter left.shorter⟩
  | none =>
    match accept '?' left.rest with
    | none => return left
    | some rest =>
      record [.passes left.rest rest.1]
      let thenBranch ← compare scope nested rest.1
      match accept ':' thenBranch.rest with
      | none => silent (.error (missingColon thenBranch))
      | some afterColon =>
        record [.passes thenBranch.rest afterColon.1]
        let elseBranch ← nested afterColon.1
        let tree ← silent
          (limited (.conditional left.tree thenBranch.tree elseBranch.tree) elseBranch.rest)
        record [.goesRound (.operators .logical) left.rest elseBranch.rest]
        have shorter : elseBranch.rest.length < left.rest.length :=
          Nat.lt_trans elseBranch.shorter
            (Nat.lt_trans afterColon.2 (Nat.lt_trans thenBranch.shorter rest.2))
        logicalFrom scope nested
          ⟨tree, (elseBranch.lastName.or thenBranch.lastName).or left.lastName, elseBranch.rest,
            Nat.lt_trans shorter left.shorter⟩
termination_by left.rest.length

def logical (scope : Scope) (nested : Recorder) : Recorder :=
  traced .logical fun s => do
    let left ← compare scope nested s
    logicalFrom scope nested left

def expression (scope : Scope) : (levels : Nat) → Recorder
  | 0 => fun s => silent (.error ⟨.tooDeep maxNesting, s⟩)
  | levels + 1 => logical scope (expression scope levels)

def formula (scope : Scope) (text : List Char) : Recorded (Expr String) := do
  let s := skipBlanks text
  let p ← expression scope (maxNesting + 1) s
  if p.rest.isEmpty then return p.tree
  else silent (.error ⟨.trailingInput (String.ofList p.rest), p.rest⟩)

/-- Everything that the parser does on formula text, and the tree that the text writes. -/
def parse (scope : Scope) (text : String) : List Event × Except CompileError (Expr String) :=
  let run := formula scope text.toList
  (run.events,
    match run.result with
    | .ok tree => .ok tree
    | .error failure =>
      .error ⟨failure.fault, text, text.toList.length - failure.unread.length⟩)

/-! ### The results -/

section

variable (scope : Scope) (nested : Recorder) (level : Nonterminal)
  (operator : (s : Input) → Except Failure (Operator s)) (operand : Recorder)

@[simp]
theorem erase_traced (reader : Recorder) : erase (traced level reader) = erase reader := by
  funext s
  simp only [erase, traced, result_bind, result_record, result_pure, pure_bind, bind_pure]

theorem result_chainFrom {s : Input} (left : Parsed s) :
    (chainFrom level operator operand left).result =
      Parser.chainFrom operator (erase operand) left := by
  induction left using chainFrom.induct with
  | case1 left ih =>
      rw [chainFrom, Parser.chainFrom]
      simp only [result_bind, result_silent]
      apply bind_congr
      rintro (_ | ⟨op, rest⟩)
      · rfl
      · simp only [result_bind, result_silent, result_record, pure_bind]
        apply bind_congr
        intro right
        apply bind_congr
        intro tree
        exact ih rest right tree

@[simp]
theorem erase_chain :
    erase (chain level operator operand) = Parser.chain operator (erase operand) := by
  rw [chain, erase_traced]
  funext s
  simp only [erase, Parser.chain, result_bind, result_chainFrom]

@[simp]
theorem result_closeParenthesis (s : Input) :
    (closeParenthesis s).result = Parser.closeParenthesis s := by
  simp only [closeParenthesis, result_bind, result_silent, result_record, result_pure, pure_bind,
    bind_pure]

@[simp]
theorem result_arguments (s : Input) :
    (arguments nested s).result = Parser.arguments (erase nested) s := by
  induction s using arguments.induct with
  | case1 s ih =>
      rw [arguments, Parser.arguments]
      simp only [result_bind]
      apply bind_congr
      intro first
      rcases accept ',' first.rest with _ | rest
      · rfl
      · simp only [result_bind, result_record, pure_bind, ih first rest]
        rfl

@[simp]
theorem result_parenthesised (s : Input) (inner : Shorter s) :
    (parenthesised nested s inner).result = Parser.parenthesised (erase nested) s inner := by
  simp only [parenthesised, Parser.parenthesised, result_bind, result_record, pure_bind,
    result_closeParenthesis]
  rfl

@[simp]
theorem result_named (s : Input) :
    (named scope nested s).result = Parser.named scope (erase nested) s := by
  unfold named Parser.named
  simp only [result_bind, result_record, pure_bind]
  split
  · rfl
  · unfold namedBehind
    rcases accept '(' (bareName s).2 with _ | inner
    · simp only [result_bind, result_silent]
      rfl
    · simp only [result_bind, result_record, pure_bind]
      rcases accept ')' inner.1 with _ | rest
      · simp only [result_bind, result_silent, result_arguments, result_closeParenthesis]
        rfl
      · simp only [result_bind, result_record, result_silent, pure_bind]
        rfl

@[simp]
theorem result_unsigned (s : Input) :
    (unsigned scope nested s).result = Parser.unsigned scope (erase nested) s := by
  cases s with
  | nil => rfl
  | cons c rest =>
      simp only [unsigned, Parser.unsigned]
      split
      · rfl
      · split
        · rfl
        · split
          · rfl
          · rcases accept '(' (c :: rest) with _ | inner
            · exact result_named scope nested _
            · exact result_parenthesised nested _ inner

@[simp]
theorem erase_primary : erase (primary scope nested) = Parser.primary scope (erase nested) := by
  rw [primary, erase_traced]
  funext s
  simp only [erase, Parser.primary]
  rcases accept '-' s with _ | inner
  · simp only [result_bind, result_unsigned]
    rfl
  · simp only [result_bind, result_record, result_silent, pure_bind, result_unsigned]
    rfl

@[simp]
theorem erase_unary : erase (unary scope nested) = Parser.unary scope (erase nested) := by
  rw [unary, erase_traced]
  funext s
  have hprimary (s : Input) : (primary scope nested s).result =
      Parser.primary scope (erase nested) s := congrFun (erase_primary scope nested) s
  simp only [erase, Parser.unary]
  rcases accept '!' s with _ | inner
  · exact hprimary s
  · simp only [result_bind, result_record, result_silent, pure_bind, hprimary]
    rfl

@[simp]
theorem erase_product : erase (product scope nested) = Parser.product scope (erase nested) := by
  rw [product, erase_chain, erase_unary, Parser.product]

@[simp]
theorem erase_sum : erase (sum scope nested) = Parser.sum scope (erase nested) := by
  rw [sum, erase_chain, erase_product, Parser.sum]

@[simp]
theorem erase_compare : erase (compare scope nested) = Parser.compare scope (erase nested) := by
  rw [compare, erase_chain, erase_sum, Parser.compare]

@[simp]
theorem result_compare (s : Input) :
    (compare scope nested s).result = Parser.compare scope (erase nested) s :=
  congrFun (erase_compare scope nested) s

theorem result_logicalFrom {s : Input} (left : Parsed s) :
    (logicalFrom scope nested left).result =
      Parser.logicalFrom scope (erase nested) left := by
  induction left using logicalFrom.induct with
  | case1 left op rest hop ih =>
      rw [logicalFrom, Parser.logicalFrom]
      simp only [hop]
      unfold junctionOperator at hop
      simp only [hop, result_bind, result_record, result_silent, pure_bind, result_compare]
      apply bind_congr
      intro right
      apply bind_congr
      intro tree
      exact ih right tree
  | case2 left hop hmark =>
      rw [logicalFrom, Parser.logicalFrom]
      simp only [hop, hmark]
      unfold junctionOperator at hop
      simp only [hop]
      rfl
  | case3 left hop rest hmark ih =>
      rw [logicalFrom, Parser.logicalFrom]
      simp only [hop, hmark]
      unfold junctionOperator at hop
      simp only [hop, result_bind, result_record, pure_bind, result_compare]
      apply bind_congr
      intro thenBranch
      rcases accept ':' thenBranch.rest with _ | afterColon
      · rfl
      · simp only [result_bind, result_record, result_silent, pure_bind]
        apply bind_congr
        intro elseBranch
        apply bind_congr
        intro tree
        exact ih thenBranch afterColon elseBranch tree

@[simp]
theorem erase_logical : erase (logical scope nested) = Parser.logical scope (erase nested) := by
  rw [logical, erase_traced]
  funext s
  simp only [erase, Parser.logical, result_bind, result_compare, result_logicalFrom]

theorem erase_expression (levels : Nat) :
    erase (expression scope levels) = Parser.expression scope levels := by
  induction levels with
  | zero => rfl
  | succ levels ih => rw [expression, erase_logical, ih, Parser.expression]

/-- Recording does not change what is read or which fault is met. -/
theorem result_formula (text : List Char) :
    (formula scope text).result = Parser.formula scope text := by
  simp only [formula, Parser.formula, result_bind, ← erase_expression]
  apply bind_congr
  intro p
  split
  · rfl
  · rfl

theorem parse_snd (text : String) : (parse scope text).2 = Parser.parse scope text := by
  unfold parse Parser.parse
  rcases hrun : Parser.formula scope text.toList with failure | tree
  · simp only [(result_formula scope text.toList).trans hrun]
  · simp only [(result_formula scope text.toList).trans hrun]

end

end Recording

/-! ### The levels by name -/

namespace Nonterminal

variable (scope : Scope)

def reader (nested : Reader) : Nonterminal → Reader
  | logical => Parser.logical scope nested
  | compare => Parser.compare scope nested
  | sum => Parser.sum scope nested
  | product => Parser.product scope nested
  | unary => Parser.unary scope nested
  | primary => Parser.primary scope nested

def recorder (nested : Recording.Recorder) : Nonterminal → Recording.Recorder
  | logical => Recording.logical scope nested
  | compare => Recording.compare scope nested
  | sum => Recording.sum scope nested
  | product => Recording.product scope nested
  | unary => Recording.unary scope nested
  | primary => Recording.primary scope nested

theorem erase_recorder (nested : Recording.Recorder) (level : Nonterminal) :
    Recording.erase (level.recorder scope nested) =
      level.reader scope (Recording.erase nested) := by
  cases level <;> simp only [recorder, reader, Recording.erase_logical, Recording.erase_compare,
    Recording.erase_sum, Recording.erase_product, Recording.erase_unary, Recording.erase_primary]

end Nonterminal

end ProcessFormula.Parser
