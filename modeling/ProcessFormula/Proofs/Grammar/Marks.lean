import ProcessFormula.Proofs.Grammar.Derivation
import ProcessFormula.Proofs.Grammar.Reading
import ProcessFormula.Proofs.Parser.Loops

/-!
Marks and operators: the parser finds an operator of some strength exactly where the next lexeme is
one.
-/

namespace ProcessFormula.Grammar

open Text Lexeme ProcessFormula.Parser

theorem accept_eq_some {c : Char} {s : List Char} {rest : Shorter s} (h : accept c s = some rest) :
    ∃ more, s = c :: more ∧ rest.1 = skipBlanks more := by
  cases s with
  | nil => cases h
  | cons d more =>
      simp only [accept] at h
      split at h
      · next hd =>
        obtain rfl := Option.some.inj h
        exact ⟨more, by rw [hd], rfl⟩
      · cases h

theorem accept_of_eq_cons {c : Char} {s more : List Char} (h : s = c :: more) :
    ∃ rest : Shorter s, accept c s = some rest ∧ rest.1 = skipBlanks more := by
  subst h
  exact ⟨⟨skipBlanks more, Nat.lt_succ_of_le (length_skipBlanks_le more)⟩, by simp [accept], rfl⟩

/-- A mark is not accepted where another character comes first. -/
theorem accept_eq_none_iff {c : Char} {s : List Char} : accept c s = none ↔ s.head? ≠ some c := by
  cases s with
  | nil => simp [accept]
  | cons d more => simp [accept]

theorem skip_of_head {c : Char} {s : List Char} (h : s.head? ≠ some c) : skip c s = s := by
  simp only [skip, accept_eq_none_iff.mpr h]

theorem skip_cons (c : Char) (more : List Char) : skip c (c :: more) = skipBlanks more := by
  simp [skip, accept]

/-- No mark or operator starts with a blank. -/
theorem Spelled.solid {position : Position} {c : Char} {more : List Char}
    (h : Spelled position (c :: more)) : isBlank c = false := by
  obtain ⟨token, h⟩ := h
  have hall : ∀ spelling ∈ spellings position, ∀ d ∈ spelling.1.head?, isBlank d = false := by
    cases position <;> simp only [spellings, List.forall_mem_cons] <;> and_intros <;> simp <;>
      decide
  exact hall _ h c rfl

/-- No mark has three characters. -/
theorem Spelled.not_three {position : Position} {c d e : Char} : ¬ Spelled position [c, d, e] := by
  intro h
  rcases h.length with ⟨_, h⟩ | ⟨_, _, h⟩
  · simp at h
  · simp at h

/-- The mark of one character, where none of two characters stands. -/
theorem reads_one {position : Position} {c : Char} {token : Token} {more : List Char}
    (hspelling : ([c], token) ∈ spellings position)
    (hmax : ∀ d ∈ (skipBlanks more).head?, ¬ Spelled position [c, d]) :
    Reads position (c :: more) token (skipBlanks more) := by
  have hspelled : Spelled position [c] := ⟨token, hspelling⟩
  exact .mark hspelling (longest_one hspelled.solid hspelled hmax)

/-- The mark of two characters. -/
theorem reads_two {position : Position} {c d : Char} {token : Token} {more others : List Char}
    (hspelling : ([c, d], token) ∈ spellings position) (hmore : skipBlanks more = d :: others) :
    Reads position (c :: more) token (skipBlanks others) := by
  have hspelled : Spelled position [c, d] := ⟨token, hspelling⟩
  exact .mark hspelling (longest_two hspelled.solid hmore hspelled fun _ => Spelled.not_three)

/-- A mark of one character, with which no other mark starts. -/
structure LoneMark (position : Position) (c : Char) (token : Token) : Prop where
  spelled : ([c], token) ∈ spellings position
  alone : ∀ d, ¬ Spelled position [c, d]
  only : ∀ chars, (chars, token) ∈ spellings position → chars = [c]

namespace LoneMark

variable {position : Position} {c : Char} {token : Token} {s : List Char}

/-- What the parser accepts is the next lexeme. -/
theorem reads (h : LoneMark position c token) {rest : Shorter s} (hrest : accept c s = some rest) :
    Reads position s token rest.1 := by
  obtain ⟨more, rfl, heq⟩ := accept_eq_some hrest
  rw [heq]
  exact reads_one h.spelled fun d _ => h.alone d

/-- The next lexeme is what the parser accepts. -/
theorem accept (h : LoneMark position c token) {rest : List Char} (hs : StartsSolid s)
    (hreads : Reads position s token rest) :
    ∃ r : Shorter s, Lexeme.accept c s = some r ∧ r.1 = rest := by
  have hkind := kind_eq_mark h.spelled
  cases hreads with
  | mark hmem hrun =>
      obtain rfl := h.only _ hmem
      obtain ⟨more, rfl, rfl⟩ := hrun.one hs
      exact accept_of_eq_cons rfl
  | number | bare | function | text | quoted => cases hkind

end LoneMark

theorem lone_opening (position : Position) : LoneMark position '(' .opening := by
  cases position <;> constructor <;> simp [Spelled, spellings]

theorem lone_closing (position : Position) : LoneMark position ')' .closing := by
  cases position <;> constructor <;> simp [Spelled, spellings]

theorem lone_comma : LoneMark .operator ',' .comma := by
  constructor <;> simp [Spelled, spellings]

theorem lone_question : LoneMark .operator '?' .question := by
  constructor <;> simp [Spelled, spellings]

theorem lone_colon : LoneMark .operator ':' .colon := by
  constructor <;> simp [Spelled, spellings]

theorem lone_not : LoneMark .operand '!' .not := by
  constructor <;> simp [Spelled, spellings]

theorem lone_plus : LoneMark .operator '+' (.operator .add) := by
  constructor <;> simp [Spelled, spellings]

theorem lone_minus (position : Position) : LoneMark position '-' (.operator .sub) := by
  cases position <;> constructor <;> simp [Spelled, spellings]

/-! ### Operators -/

def operatorOf : Strength → (s : Input) → Except Failure (Operator s)
  | .junction => fun s => .ok (junctionOperator s)
  | .comparison => compareOperator
  | .sum => sumOperator
  | .product => productOperator

private theorem reads_single {c : Char} {op op' : BinaryOp} {s : Input} {rest : Shorter s}
    (h : single c op s = some (op', rest)) (hmark : LoneMark .operator c (.operator op)) :
    Reads .operator s (.operator op') rest.1 ∧ op = op' := by
  obtain ⟨rest', hrest, heq⟩ := Option.map_eq_some_iff.mp h
  obtain ⟨rfl, rfl⟩ := Prod.mk.inj heq
  exact ⟨hmark.reads hrest, rfl⟩

private theorem reads_doubled {c : Char} {op op' : BinaryOp} {s : Input} {rest : Shorter s}
    (h : doubled c op s = some (op', rest)) (hone : ([c], .operator op) ∈ spellings .operator)
    (htwo : ([c, c], .operator op) ∈ spellings .operator)
    (hmax : ∀ d, Spelled .operator [c, d] → d = c) :
    Reads .operator s (.operator op') rest.1 ∧ op = op' := by
  obtain ⟨rest', hrest', heq⟩ := Option.map_eq_some_iff.mp h
  obtain ⟨rfl, rfl⟩ := Prod.mk.inj heq
  refine ⟨?_, rfl⟩
  obtain ⟨more, rfl, hmore⟩ := accept_eq_some hrest'
  dsimp only
  rw [hmore]
  by_cases hc : (skipBlanks more).head? = some c
  · obtain ⟨others, hothers⟩ := List.head?_eq_some_iff.mp hc
    rw [hothers, skip_cons]
    exact reads_two htwo hothers
  · rw [skip_of_head hc]
    refine reads_one hone fun d hd hspelled => ?_
    rw [hmax d hspelled] at hd
    exact hc hd

private theorem reads_maybeEquals {c : Char} {alone orEqual op : BinaryOp} {s : Input}
    {rest : Shorter s} (h : maybeEquals c alone orEqual s = some (op, rest))
    (hone : ([c], .operator alone) ∈ spellings .operator)
    (htwo : ([c, '='], .operator orEqual) ∈ spellings .operator)
    (hmax : ∀ d, Spelled .operator [c, d] → d = '=') :
    Reads .operator s (.operator op) rest.1 ∧ (op = alone ∨ op = orEqual) := by
  obtain ⟨rest', hrest', heq⟩ := Option.map_eq_some_iff.mp h
  obtain ⟨more, rfl, hmore⟩ := accept_eq_some hrest'
  split at heq
  · next rest'' hrest'' =>
    obtain ⟨rfl, rfl⟩ := Prod.mk.inj heq
    obtain ⟨others, hothers, hrest⟩ := accept_eq_some hrest''
    rw [hmore] at hothers
    refine ⟨?_, Or.inr rfl⟩
    dsimp only
    rw [hrest]
    exact reads_two htwo hothers
  · next hnone =>
    obtain ⟨rfl, rfl⟩ := Prod.mk.inj heq
    rw [accept_eq_none_iff, hmore] at hnone
    refine ⟨?_, Or.inl rfl⟩
    rw [hmore]
    refine reads_one hone fun d hd hspelled => ?_
    rw [hmax d hspelled] at hd
    exact hnone hd

private theorem reads_withEquals {c : Char} {op op' : BinaryOp} {expected : Expected} {s : Input}
    {rest : Shorter s} (h : withEquals c op expected s = .ok (some (op', rest)))
    (htwo : ([c, '='], .operator op) ∈ spellings .operator) :
    Reads .operator s (.operator op') rest.1 ∧ op = op' := by
  unfold withEquals at h
  split at h
  · cases h
  · next rest' hrest' =>
    split at h
    · next rest'' hrest'' =>
      obtain ⟨rfl, rfl⟩ := Prod.mk.inj (Option.some.inj (Except.ok.inj h))
      obtain ⟨more, rfl, hmore⟩ := accept_eq_some hrest'
      obtain ⟨others, hothers, hrest⟩ := accept_eq_some hrest''
      rw [hmore] at hothers
      refine ⟨?_, rfl⟩
      dsimp only
      rw [hrest]
      exact reads_two htwo hothers
    · cases h

/-- The parser's logical operators are lexemes. -/
theorem reads_junction {op : BinaryOp} {s : Input} {rest : Shorter s}
    (h : junctionOperator s = some (op, rest)) :
    Reads .operator s (.operator op) rest.1 ∧ op.strength = .junction := by
  rcases Option.or_eq_some_iff.mp h with h | ⟨-, h⟩
  all_goals
    obtain ⟨hreads, rfl⟩ := reads_doubled h (by simp [spellings]) (by simp [spellings])
      (by simp [Spelled, spellings])
    exact ⟨hreads, rfl⟩

private theorem reads_comparison {op : BinaryOp} {s : Input} {rest : Shorter s}
    (h : compareOperator s = .ok (some (op, rest))) :
    Reads .operator s (.operator op) rest.1 ∧ op.strength = .comparison := by
  obtain ⟨ne, hne, h⟩ := bind_eq_ok.mp h
  obtain ⟨eq, heq, h⟩ := bind_eq_ok.mp h
  simp only [pure, Except.pure, Except.ok.injEq, Option.or_eq_some_iff] at h
  rcases h with ((rfl | ⟨-, rfl⟩) | ⟨-, h⟩) | ⟨-, h⟩
  · obtain ⟨hreads, rfl⟩ := reads_withEquals hne (by simp [spellings])
    exact ⟨hreads, rfl⟩
  · obtain ⟨hreads, rfl⟩ := reads_withEquals heq (by simp [spellings])
    exact ⟨hreads, rfl⟩
  all_goals
    obtain ⟨hreads, hop⟩ := reads_maybeEquals h (by simp [spellings]) (by simp [spellings])
      (by simp [Spelled, spellings])
    rcases hop with rfl | rfl
    · exact ⟨hreads, rfl⟩
    · exact ⟨hreads, rfl⟩

private theorem reads_sum {op : BinaryOp} {s : Input} {rest : Shorter s}
    (h : sumOperator s = .ok (some (op, rest))) :
    Reads .operator s (.operator op) rest.1 ∧ op.strength = .sum := by
  rcases Option.or_eq_some_iff.mp (Except.ok.inj h) with h | ⟨-, h⟩
  all_goals
    obtain ⟨hreads, rfl⟩ := reads_single h (by constructor <;> simp [Spelled, spellings])
    exact ⟨hreads, rfl⟩

private theorem reads_product {op : BinaryOp} {s : Input} {rest : Shorter s}
    (h : productOperator s = .ok (some (op, rest))) :
    Reads .operator s (.operator op) rest.1 ∧ op.strength = .product := by
  simp only [productOperator, Except.ok.injEq, Option.or_eq_some_iff] at h
  rcases h with (h | ⟨-, h⟩) | ⟨-, h⟩
  all_goals
    obtain ⟨hreads, rfl⟩ := reads_single h (by constructor <;> simp [Spelled, spellings])
    exact ⟨hreads, rfl⟩

/-- An operator that the parser finds is the next lexeme. -/
theorem reads_of_operatorOf {strength : Strength} {op : BinaryOp} {s : Input} {rest : Shorter s}
    (h : operatorOf strength s = .ok (some (op, rest))) :
    Reads .operator s (.operator op) rest.1 ∧ op.strength = strength := by
  cases strength with
  | junction => exact reads_junction (Except.ok.inj h)
  | comparison => exact reads_comparison h
  | sum => exact reads_sum h
  | product => exact reads_product h

theorem single_of_longest {viable : List Char → Prop} {c : Char} {s rest : List Char}
    (op : BinaryOp) (hs : StartsSolid s) (h : Longest viable [c] s rest) :
    ∃ r : Shorter s, single c op s = some (op, r) ∧ r.1 = rest := by
  obtain ⟨more, rfl, rfl⟩ := h.one hs
  obtain ⟨r, hr, hrest⟩ := accept_of_eq_cons (rfl : c :: more = c :: more)
  exact ⟨r, by simp [single, hr], hrest⟩

/-- An operator that may be doubled, written once. -/
theorem doubled_of_one {c : Char} {s rest : List Char} (op : BinaryOp) (hs : StartsSolid s)
    (h : Longest (Spelled .operator) [c] s rest) (hspelled : Spelled .operator [c, c]) :
    ∃ r : Shorter s, doubled c op s = some (op, r) ∧ r.1 = rest := by
  obtain ⟨more, rfl, rfl⟩ := h.one hs
  obtain ⟨r, hr, hrest⟩ := accept_of_eq_cons (rfl : c :: more = c :: more)
  refine ⟨⟨skip c r.1, Nat.lt_of_le_of_lt (length_skip_le c r.1) r.2⟩, by simp [doubled, hr], ?_⟩
  dsimp only
  rw [hrest]
  exact skip_of_head fun hc => h.maximal c hc hspelled

theorem doubled_of_two {viable : List Char → Prop} {c : Char} {s rest : List Char}
    (op : BinaryOp) (hs : StartsSolid s) (h : Longest viable [c, c] s rest) :
    ∃ r : Shorter s, doubled c op s = some (op, r) ∧ r.1 = rest := by
  obtain ⟨more, others, rfl, hothers, rfl⟩ := h.two hs
  obtain ⟨r, hr, hrest⟩ := accept_of_eq_cons (rfl : c :: more = c :: more)
  refine ⟨⟨skip c r.1, Nat.lt_of_le_of_lt (length_skip_le c r.1) r.2⟩, by simp [doubled, hr], ?_⟩
  dsimp only
  rw [hrest, hothers, skip_cons]

/-- A comparison without an equals sign, where none follows. -/
theorem maybeEquals_of_one {c : Char} {s rest : List Char} (alone orEqual : BinaryOp)
    (hs : StartsSolid s) (h : Longest (Spelled .operator) [c] s rest)
    (hspelled : Spelled .operator [c, '=']) :
    ∃ r : Shorter s, maybeEquals c alone orEqual s = some (alone, r) ∧ r.1 = rest := by
  obtain ⟨more, rfl, rfl⟩ := h.one hs
  obtain ⟨r, hr, hrest⟩ := accept_of_eq_cons (rfl : c :: more = c :: more)
  have hnone : accept '=' r.1 = none := by
    rw [accept_eq_none_iff, hrest]
    exact fun hc => h.maximal '=' hc hspelled
  exact ⟨r, by simp [maybeEquals, hr, hnone], hrest⟩

theorem maybeEquals_of_two {viable : List Char → Prop} {c : Char} {s rest : List Char}
    (alone orEqual : BinaryOp) (hs : StartsSolid s) (h : Longest viable [c, '='] s rest) :
    ∃ r : Shorter s, maybeEquals c alone orEqual s = some (orEqual, r) ∧ r.1 = rest := by
  obtain ⟨more, others, rfl, hothers, rfl⟩ := h.two hs
  obtain ⟨⟨r, hlt⟩, hr, rfl⟩ := accept_of_eq_cons (rfl : c :: more = c :: more)
  obtain ⟨r', hr', hrest'⟩ := accept_of_eq_cons hothers
  exact ⟨⟨r'.1, Nat.lt_trans r'.2 hlt⟩, by simp [maybeEquals, hr, hr'], hrest'⟩

theorem withEquals_of_two {viable : List Char → Prop} {c : Char} {s rest : List Char}
    (op : BinaryOp) (expected : Expected) (hs : StartsSolid s)
    (h : Longest viable [c, '='] s rest) :
    ∃ r : Shorter s, withEquals c op expected s = .ok (some (op, r)) ∧ r.1 = rest := by
  obtain ⟨more, others, rfl, hothers, rfl⟩ := h.two hs
  obtain ⟨⟨r, hlt⟩, hr, rfl⟩ := accept_of_eq_cons (rfl : c :: more = c :: more)
  obtain ⟨r', hr', hrest'⟩ := accept_of_eq_cons hothers
  exact ⟨⟨r'.1, Nat.lt_trans r'.2 hlt⟩, by simp [withEquals, hr, hr'], hrest'⟩

/-! Where the text starts with `d`, there is no operator that starts with another character `c`. -/

section

variable {d : Char} {s : Input} (hd : s.head? = some d) (c : Char) (hne : d ≠ c)
include hd hne

theorem accept_of_head : accept c s = none := by
  rw [accept_eq_none_iff, hd]
  exact fun h => hne (Option.some.inj h)

theorem single_of_head (op : BinaryOp) : single c op s = none := by
  simp [single, accept_of_head hd c hne]

theorem doubled_of_head (op : BinaryOp) : doubled c op s = none := by
  simp [doubled, accept_of_head hd c hne]

theorem maybeEquals_of_head (alone orEqual : BinaryOp) : maybeEquals c alone orEqual s = none := by
  simp [maybeEquals, accept_of_head hd c hne]

theorem withEquals_of_head (op : BinaryOp) (expected : Expected) :
    withEquals c op expected s = .ok none := by
  simp [withEquals, accept_of_head hd c hne]

end

/-- A run starts with its first character. -/
theorem Longest.head {viable : List Char → Prop} {c : Char} {chars s rest : List Char}
    (h : Longest viable (c :: chars) s rest) (hs : StartsSolid s) : s.head? = some c := by
  obtain ⟨more, rfl, -⟩ := h.eq_cons hs
  rfl

/-- A name that is read starts with the character that the text starts with. -/
theorem head_bareName {s : List Char} (hs : StartsSolid s)
    (hhead : ∀ c ∈ s.head?, startsNumber c = false) (hne : (bareName s).1 ≠ []) :
    ∃ c ∈ (bareName s).1.head?, startsNumber c = false := by
  have hrun : Longest (Runs nameGoesOn) (bareName s).1 s (bareName s).2 := bareName_eq_iff.mp rfl
  obtain ⟨c, chars, hchars⟩ := List.exists_cons_of_ne_nil hne
  rw [hchars] at hrun ⊢
  exact ⟨c, rfl, hhead c (hrun.head hs)⟩

section

variable {op : BinaryOp} {chars s rest : List Char} (hs : StartsSolid s)
  (hspelling : (chars, .operator op) ∈ spellings .operator)
  (hrun : Longest (Spelled .operator) chars s rest)
include hs hspelling hrun

private theorem junction_of_spelling (hop : op.strength = .junction) :
    ∃ r : Shorter s, junctionOperator s = some (op, r) ∧ r.1 = rest := by
  cases op <;> cases hop <;> simp [spellings] at hspelling
  case and =>
    rcases hspelling with rfl | rfl
    · obtain ⟨r, hr, hrest⟩ := doubled_of_one .and hs hrun (by simp [Spelled, spellings])
      exact ⟨r, by simp [junctionOperator, hr], hrest⟩
    · obtain ⟨r, hr, hrest⟩ := doubled_of_two .and hs hrun
      exact ⟨r, by simp [junctionOperator, hr], hrest⟩
  case or =>
    rcases hspelling with rfl | rfl
    · obtain ⟨r, hr, hrest⟩ := doubled_of_one .or hs hrun (by simp [Spelled, spellings])
      exact ⟨r, by simp [junctionOperator, hr, doubled_of_head (hrun.head hs)], hrest⟩
    · obtain ⟨r, hr, hrest⟩ := doubled_of_two .or hs hrun
      exact ⟨r, by simp [junctionOperator, hr, doubled_of_head (hrun.head hs)], hrest⟩

private theorem comparison_of_spelling (hop : op.strength = .comparison) :
    ∃ r : Shorter s, compareOperator s = .ok (some (op, r)) ∧ r.1 = rest := by
  cases op <;> cases hop <;> simp [spellings] at hspelling <;> subst hspelling
  all_goals have hhead := hrun.head hs
  case eq =>
    obtain ⟨r, hr, hrest⟩ := withEquals_of_two .eq .equal hs hrun
    refine ⟨r, ?_, hrest⟩
    simp [compareOperator, hr, withEquals_of_head hhead, bind, Except.bind, pure, Except.pure]
  case ne =>
    obtain ⟨r, hr, hrest⟩ := withEquals_of_two .ne .notEqual hs hrun
    refine ⟨r, ?_, hrest⟩
    simp [compareOperator, hr, withEquals_of_head hhead, bind, Except.bind, pure, Except.pure]
  case gt =>
    obtain ⟨r, hr, hrest⟩ := maybeEquals_of_one .gt .ge hs hrun (by simp [Spelled, spellings])
    refine ⟨r, ?_, hrest⟩
    simp [compareOperator, hr, withEquals_of_head hhead, bind, Except.bind, pure, Except.pure]
  case ge =>
    obtain ⟨r, hr, hrest⟩ := maybeEquals_of_two .gt .ge hs hrun
    refine ⟨r, ?_, hrest⟩
    simp [compareOperator, hr, withEquals_of_head hhead, bind, Except.bind, pure, Except.pure]
  case lt =>
    obtain ⟨r, hr, hrest⟩ := maybeEquals_of_one .lt .le hs hrun (by simp [Spelled, spellings])
    refine ⟨r, ?_, hrest⟩
    simp [compareOperator, hr, withEquals_of_head hhead, maybeEquals_of_head hhead, bind,
      Except.bind, pure, Except.pure]
  case le =>
    obtain ⟨r, hr, hrest⟩ := maybeEquals_of_two .lt .le hs hrun
    refine ⟨r, ?_, hrest⟩
    simp [compareOperator, hr, withEquals_of_head hhead, maybeEquals_of_head hhead, bind,
      Except.bind, pure, Except.pure]

private theorem sum_of_spelling (hop : op.strength = .sum) :
    ∃ r : Shorter s, sumOperator s = .ok (some (op, r)) ∧ r.1 = rest := by
  cases op <;> cases hop <;> simp [spellings] at hspelling <;> subst hspelling
  all_goals have hhead := hrun.head hs
  case add =>
    obtain ⟨r, hr, hrest⟩ := single_of_longest .add hs hrun
    exact ⟨r, by simp [sumOperator, hr], hrest⟩
  case sub =>
    obtain ⟨r, hr, hrest⟩ := single_of_longest .sub hs hrun
    exact ⟨r, by simp [sumOperator, hr, single_of_head hhead], hrest⟩

private theorem product_of_spelling (hop : op.strength = .product) :
    ∃ r : Shorter s, productOperator s = .ok (some (op, r)) ∧ r.1 = rest := by
  cases op <;> cases hop <;> simp [spellings] at hspelling <;> subst hspelling
  all_goals have hhead := hrun.head hs
  case pow =>
    obtain ⟨r, hr, hrest⟩ := single_of_longest .pow hs hrun
    exact ⟨r, by simp [productOperator, hr], hrest⟩
  case mul =>
    obtain ⟨r, hr, hrest⟩ := single_of_longest .mul hs hrun
    exact ⟨r, by simp [productOperator, hr, single_of_head hhead], hrest⟩
  case div =>
    obtain ⟨r, hr, hrest⟩ := single_of_longest .div hs hrun
    exact ⟨r, by simp [productOperator, hr, single_of_head hhead], hrest⟩

end

/-- The parser finds an operator that is the next lexeme. -/
theorem operatorOf_of_reads {op : BinaryOp} {s rest : List Char} (hs : StartsSolid s)
    (h : Reads .operator s (.operator op) rest) :
    ∃ r : Shorter s, operatorOf op.strength s = .ok (some (op, r)) ∧ r.1 = rest := by
  cases h with
  | mark hspelling hrun =>
      cases hstrength : op.strength with
      | junction =>
          obtain ⟨r, hr, hrest⟩ := junction_of_spelling hs hspelling hrun hstrength
          exact ⟨r, congrArg Except.ok hr, hrest⟩
      | comparison => exact comparison_of_spelling hs hspelling hrun hstrength
      | sum => exact sum_of_spelling hs hspelling hrun hstrength
      | product => exact product_of_spelling hs hspelling hrun hstrength

def firstCharacters : Strength → List Char
  | .junction => ['&', '|']
  | .comparison => ['!', '=', '>', '<']
  | .sum => ['+', '-']
  | .product => ['^', '*', '/']

private theorem operator_of_firstCharacter {strength : Strength} {c : Char} {more : List Char}
    {token : Token} (hspelling : (c :: more, token) ∈ spellings .operator)
    (hc : c ∈ firstCharacters strength) :
    ∃ op, token = .operator op ∧ op.strength = strength := by
  simp only [spellings, List.mem_cons, Prod.mk.injEq, List.cons.injEq, List.not_mem_nil, or_false]
    at hspelling
  rcases hspelling with
    h | h | h | h | h | h | h | h | h | h | h | h | h | h | h | h | h | h | h | h
  all_goals
    obtain ⟨⟨rfl, rfl⟩, rfl⟩ := h
    cases strength <;> first
      | exact ⟨_, rfl, rfl⟩
      | exact absurd hc (by decide)

private theorem operatorOf_of_not_mem {strength : Strength} {s : Input}
    (h : ∀ c ∈ firstCharacters strength, s.head? ≠ some c) : operatorOf strength s = .ok none := by
  have hnone : ∀ c ∈ firstCharacters strength, accept c s = none :=
    fun c hc => accept_eq_none_iff.mpr (h c hc)
  cases strength <;> simp only [firstCharacters, List.forall_mem_cons] at hnone
  · simp [operatorOf, junctionOperator, doubled, hnone]
  · simp [operatorOf, compareOperator, withEquals, maybeEquals, hnone, bind, Except.bind, pure,
      Except.pure]
  · simp [operatorOf, sumOperator, single, hnone]
  · simp [operatorOf, productOperator, single, hnone]

/-- The parser finds no operator of a strength where the text ends and where another lexeme is
next. -/
theorem operatorOf_eq_none {strength : Strength} {s : Input} (hs : StartsSolid s)
    (h : s = [] ∨ ∃ token rest, Reads .operator s token rest ∧
      ∀ op, token = .operator op → op.strength ≠ strength) :
    operatorOf strength s = .ok none := by
  apply operatorOf_of_not_mem
  rintro c hc hhead
  rcases h with rfl | ⟨token, rest, hreads, hother⟩
  · cases hhead
  · cases hreads with
    | mark hspelling hrun =>
        obtain ⟨d, more, rfl, -⟩ := kind_of_spelling hspelling
        obtain rfl := Option.some.inj ((hrun.head hs).symm.trans hhead)
        obtain ⟨op, hop, hstrength⟩ := operator_of_firstCharacter hspelling hc
        exact hother op hop hstrength

end ProcessFormula.Grammar
