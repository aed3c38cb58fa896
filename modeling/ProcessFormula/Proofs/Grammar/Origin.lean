import ProcessFormula.Proofs.Expr.Printing
import ProcessFormula.Proofs.Grammar.Reading
import ProcessFormula.Proofs.Grammar.Derivation

/-!
What a tree owes to being read from text: its constants are numbers and texts without backslashes,
its variables are known, it negates by subtracting from zero, and its functions were found under
names that can stand in text.
-/

namespace ProcessFormula

namespace Grammar

open Text Lexeme ProcessFormula.Parser

structure NameText (chars : List Char) : Prop where
  all : ∀ c ∈ chars, isNameChar c = true
  head : ∃ c ∈ chars.head?, startsNumber c = false

/-- A name that a digit does not start. The point is no name character. -/
theorem nameText_cons_iff {c : Char} {rest : List Char} :
    NameText (c :: rest) ↔ c.isDigit = false ∧ (c :: rest).all isNameChar = true := by
  constructor
  · rintro ⟨hall, d, hd, hstart⟩
    obtain rfl : c = d := by simpa using hd
    simp only [startsNumber, Bool.or_eq_false_iff] at hstart
    exact ⟨hstart.1, List.all_eq_true.mpr hall⟩
  · rintro ⟨hdigit, hall⟩
    have hall' := List.all_eq_true.mp hall
    have hpoint : c ≠ '.' := by
      rintro rfl
      have hc := hall' '.' (by simp)
      revert hc
      decide
    exact ⟨hall', c, rfl, by simp [startsNumber, hdigit, hpoint]⟩

/-- Any number of name characters may stand behind each other. -/
theorem runs_name_iff {chars : List Char} :
    Runs nameGoesOn chars ↔ ∀ c ∈ chars, isNameChar c = true := by
  constructor
  · intro h c hc
    obtain ⟨before, after, hsplit⟩ := List.append_of_mem hc
    exact h before c after hsplit
  · rintro h before c after rfl
    exact h c (by simp)

end Grammar

open Grammar

/-- What is said of a subtree that was read from text. -/
def Expr.FromText (knows : String → Bool) (resolve : String → Option Callable) :
    Expr String → Prop
  | .constant value =>
    (∃ now x, value = .number now x) ∨ ∃ now s, value = .text now s ∧ '\\' ∉ s.toList
  | .var name => knows name = true
  | .unary op _ => op = .not
  | .call f args =>
    f.arity.accepts args.length = true ∧ ∃ name, NameText name.toList ∧ resolve name = some f
  | _ => True

namespace Grammar

open Text Lexeme ProcessFormula.Parser

/-- What is said of a lexeme that was read from text. -/
def Token.FromText : Token → Prop
  | .text s => '\\' ∉ s.toList
  | .function name => NameText name.toList
  | _ => True

theorem Reads.fromText {position : Position} {s rest : List Char} {token : Token}
    (h : Reads position s token rest) : token.FromText := by
  cases h with
  | number | bare | quoted => trivial
  | function hrun hhead _ =>
      refine ⟨?_, ?_⟩
      · rw [String.toList_ofList]
        exact runs_name_iff.mp hrun.isViable
      · rwa [String.toList_ofList]
  | text => simp [Token.FromText]
  | mark hspelling _ =>
      have hkind := kind_eq_mark hspelling
      cases token <;> trivial

/-- Every lexeme of a text is one that text can write. -/
theorem Lexes.fromText {position final : Position} {s rest : List Char} {row : List Token}
    (h : Lexes position s row final rest) : ∀ token ∈ row, token.FromText := by
  intro token htoken
  obtain ⟨_, _, _, hreads⟩ := h.exists_reads htoken
  exact hreads.fromText

theorem mem_separated {rows : List (List Token)} {row : List Token} (h : row ∈ rows)
    {token : Token} (htoken : token ∈ row) : token ∈ separated rows := by
  induction rows with
  | nil => cases h
  | cons first rows ih =>
      rcases List.mem_cons.mp h with rfl | h
      · obtain ⟨more, hmore⟩ := separated_eq_append row rows
        rw [hmore]
        exact List.mem_append_left _ htoken
      · rw [separated_cons first (List.ne_nil_of_mem h)]
        simp [ih h]

/-- A tree over such lexemes has only such leaves and calls. The induction is on the derivation. -/
theorem Derives.fromText {scope : Scope} {depth : Nat} {level : Level} {row : List Token}
    {tree : Expr String} (h : Derives scope depth level row tree)
    (hrow : ∀ token ∈ row, token.FromText) :
    tree.Everywhere (Expr.FromText scope.knows scope.resolve) := by
  induction h with
  | chains _ ih | single _ ih | plain _ ih | unsigned _ ih => exact ih hrow
  | conditional _ _ _ _ ihcondition ihthen ihelse =>
      simp only [List.forall_mem_append, List.forall_mem_cons] at hrow
      exact ⟨trivial, ihcondition hrow.1, ihthen hrow.2.2.1, ihelse hrow.2.2.2.2⟩
  | chain _ _ ihleft ihright =>
      simp only [List.forall_mem_append, List.forall_mem_cons] at hrow
      exact ⟨trivial, ihleft hrow.1, ihright hrow.2.2⟩
  | not _ ih => exact ⟨rfl, ih (List.forall_mem_cons.mp hrow).2⟩
  | number x => exact .inl ⟨_, _, rfl⟩
  | negativeNumber x => exact .inl ⟨_, _, rfl⟩
  | text s => exact .inr ⟨_, s, rfl, hrow (.text s) (by simp)⟩
  | negativeText s => exact .inr ⟨_, s, rfl, hrow (.text s) (by simp)⟩
  | negative _ ih =>
      exact ⟨trivial, .inl ⟨_, _, rfl⟩, ih (List.forall_mem_cons.mp hrow).2⟩
  | quoted hknown | bare hknown => exact hknown
  | parenthesised _ _ ih =>
      simp only [List.forall_mem_cons, List.forall_mem_append] at hrow
      exact ih hrow.2.1
  | @call _ name f args hresolve harity _ _ ih =>
      simp only [List.forall_mem_cons, List.forall_mem_append] at hrow
      refine ⟨⟨by rwa [List.length_map], name, hrow.1, hresolve⟩, ?_⟩
      rw [Expr.allEverywhere_iff]
      intro tree htree
      obtain ⟨arg, harg, rfl⟩ := List.mem_map.mp htree
      exact ih arg harg fun token htoken =>
        hrow.2.2.1 token (mem_separated (List.mem_map_of_mem harg) htoken)

/-- So constants hold numbers and texts only, names are known and calls resolved. -/
theorem Sentence.fromText {scope : Scope} {text : String} {tree : Expr String}
    (h : Sentence scope text tree) :
    tree.Everywhere (Expr.FromText scope.knows scope.resolve) := by
  obtain ⟨tokens, hlexes, hderives, -⟩ := h
  exact hderives.fromText hlexes.fromText

end Grammar

end ProcessFormula
